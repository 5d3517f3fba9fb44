import TheGame.Networking.Http.Common
import TheGame.Networking.RouteManager

/-!
# The table which registrations make

`AddCallback` keeps the callback that is registered first for a method and a path. Registrations
and requests name the method through `ConvertVerbBeast`, to which all verbs but five are the same.
-/

namespace TheGame

/-- A call `Add(ConvertVerbBeast(verb), path, callback)`. -/
structure Registration (CallbackT : Type*) where
  verb : Verb
  path : Path
  callback : CallbackT
deriving DecidableEq

namespace RouteManagerBase

variable {CallbackT WSHandlerT : Type*} {rm : RouteManagerBase CallbackT WSHandlerT}
  {m m' : HttpMethod} {p p' : Path} {cb : CallbackT} {rs : List (Registration CallbackT)}

/-- The registrations, in this order. -/
def addAll (rm : RouteManagerBase CallbackT WSHandlerT) (rs : List (Registration CallbackT)) :
    RouteManagerBase CallbackT WSHandlerT :=
  rs.foldl (fun rm r => rm.add (convertVerbBeast r.verb) r.path r.callback) rm

@[simp] theorem getCallback_empty :
    getCallback ({} : RouteManagerBase CallbackT WSHandlerT) m p = none := rfl

/-- `Add` answers lookups of its own method and path, unless there is a callback already. -/
theorem getCallback_add : (rm.add m p cb).getCallback m' p' =
    (rm.getCallback m' p').or (if m = m' ∧ p = p' then some cb else none) := by
  by_cases hm : m' = m
  · subst m'
    have hget : rm.getCallback m p' = ((rm.callbacks.lookup m).getD ∅).lookup p' := by
      rw [getCallback]
      cases rm.callbacks.lookup m <;> rfl
    rw [hget, getCallback, add, AList.lookup_insert]
    simp only [UnorderedMap.lookup_emplace, true_and]
  · rw [getCallback, add]
    simp only [AList.lookup_insert_ne hm]
    rw [if_neg fun h => hm h.1.symm, Option.or_none, getCallback]

/-- A lookup finds what was there before, or else the first registration of the method and the
path. -/
theorem getCallback_addAll : (rm.addAll rs).getCallback m p =
    (rm.getCallback m p).or
      ((rs.find? fun r => convertVerbBeast r.verb = m ∧ r.path = p).map (·.callback)) := by
  induction rs generalizing rm with
  | nil => simp [addAll]
  | cons r rs ih =>
    rw [addAll, List.foldl_cons, ← addAll, ih, getCallback_add, Option.or_assoc, List.find?_cons]
    by_cases h : convertVerbBeast r.verb = m ∧ r.path = p <;> simp [h]

/-- The verbs which `ConvertVerbBeast` tells from all others. -/
def knownVerbs : List Verb := [.get, .post, .put, .delete_, .patch]

theorem convertVerbBeast_eq_iff {v v' : Verb} (hv : v ∈ knownVerbs) :
    convertVerbBeast v' = convertVerbBeast v ↔ v' = v := by
  simp only [knownVerbs, List.mem_cons, List.not_mem_nil, or_false] at hv
  obtain rfl | rfl | rfl | rfl | rfl := hv <;> cases v' <;> decide

theorem convertVerbBeast_of_notMem {v : Verb} (hv : v ∉ knownVerbs) :
    convertVerbBeast v = .UNKNOWN := by
  revert hv
  cases v <;> decide

/-- The callback for a verb and a path is the first one registered for the path and a verb that
converts to the same method. There is one whenever one was registered for this verb and path, and
for the five known verbs it is such a one. The others convert to `UNKNOWN`. -/
theorem getCallback_registrations (rs : List (Registration CallbackT)) (v : Verb) (p : Path) :
    (addAll ({} : RouteManagerBase CallbackT WSHandlerT) rs).getCallback (convertVerbBeast v) p =
        (rs.find? fun r => convertVerbBeast r.verb = convertVerbBeast v ∧ r.path = p).map
          (·.callback) ∧
      (∀ r ∈ rs, r.verb = v → r.path = p →
        ((addAll ({} : RouteManagerBase CallbackT WSHandlerT) rs).getCallback
          (convertVerbBeast v) p).isSome) ∧
      (v ∈ knownVerbs → ∀ cb,
        (addAll ({} : RouteManagerBase CallbackT WSHandlerT) rs).getCallback
          (convertVerbBeast v) p = some cb →
        ∃ r ∈ rs, r.verb = v ∧ r.path = p ∧ r.callback = cb) ∧
      (v ∉ knownVerbs → convertVerbBeast v = .UNKNOWN) := by
  rw [getCallback_addAll, getCallback_empty, Option.none_or]
  refine ⟨rfl, ?_, ?_, convertVerbBeast_of_notMem⟩
  · rintro r hr rfl rfl
    rw [Option.isSome_map, List.find?_isSome]
    exact ⟨r, hr, by simp⟩
  · intro hv cb hcb
    obtain ⟨r, hr, rfl⟩ := Option.map_eq_some_iff.mp hcb
    have hp := List.find?_some hr
    simp only [decide_eq_true_eq, convertVerbBeast_eq_iff hv] at hp
    exact ⟨r, List.mem_of_find?_eq_some hr, hp.1, hp.2, rfl⟩

/-- `HEAD` and `OPTIONS` convert to the same method: the callback registered for the one answers
the other, although there is one for the other, too. -/
theorem getCallback_head_options :
    (addAll ({} : RouteManagerBase Nat Unit) [⟨.head, bytes "/p", 0⟩]).getCallback
        (convertVerbBeast .options) (bytes "/p") = some 0 ∧
      (addAll ({} : RouteManagerBase Nat Unit) [⟨.head, bytes "/p", 0⟩,
        ⟨.options, bytes "/p", 1⟩]).getCallback (convertVerbBeast .options) (bytes "/p") =
          some 0 := by
  decide

end RouteManagerBase

end TheGame
