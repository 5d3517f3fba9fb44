import TheGame.Networking.Http.Url

/-!
# Queries, encoded and read back

`ParseQuery` checks the decoded query and stores the encoded parameters. It undoes percent-encoding
exactly for the lists of parameters which the encoding leaves alone, in their keys and in the first
value of each key, and whose values are well-formed query strings themselves.
-/

namespace TheGame
open Rfc3986

/-- The keys and values of a query. -/
abbrev Pairs := List (Bytes × Option Bytes)

/-- A percent-encoding of keys and values, given by the characters it leaves alone. -/
structure Encoder where
  keep : UInt8 → Bool
  query : ∀ b, keep b → isQueryChar b
  ampersand : keep 0x26 = false
  equals : keep 0x3D = false
  plus : keep 0x2B = false

/-- The value of the first occurrence of a key. -/
def firstValue (ps : Pairs) (key : Bytes) : Option Bytes :=
  (ps.find? (·.1 = key)).map (·.2.getD [])

namespace Encoder
variable (E : Encoder)

def encode (s : Bytes) : Bytes := pctEncode E.keep s

def pair (p : Bytes × Option Bytes) : Bytes := E.encode p.1 ++ tail 0x3D (p.2.map E.encode)

/-- The pairs, encoded and joined with `=` and `&`. -/
def toQuery (ps : Pairs) : Bytes := [0x26].intercalate (ps.map E.pair)

/-- The encoding leaves the keys and the first value of each key alone, and the values are
well-formed query strings. -/
def Transparent (ps : Pairs) : Prop :=
  (∀ p ∈ ps, ∀ b ∈ p.1, E.keep b) ∧ (∀ p ∈ ps, ∀ v ∈ firstValue ps p.1, ∀ b ∈ v, E.keep b) ∧
    ∀ p ∈ ps, ∀ v ∈ p.2, isPctString isQueryChar v

instance (ps : Pairs) : Decidable (E.Transparent ps) :=
  have (s : Bytes) : Decidable (∀ b ∈ s, E.keep b) := List.decidableBAll _ s
  inferInstanceAs (Decidable (_ ∧ _ ∧ _))

/-- The percent-encoding that keeps the unreserved characters only. -/
def unreserved : Encoder where
  keep := isUnreserved
  query b hb := by simp [isQueryChar, isPathChar, isPchar, isUserinfoChar, isNameChar, hb]
  ampersand := by decide
  equals := by decide
  plus := by decide

end Encoder

/-- The string between the question mark and the end, when it is decoded. -/
def plainQuery (ps : Pairs) : Bytes := [0x26].intercalate (ps.map fun p => p.1 ++ tail 0x3D p.2)

variable {E : Encoder} {ps : Pairs} {p : Bytes × Option Bytes} {s key : Bytes}

theorem exists_of_firstValue {v : Bytes} (h : firstValue ps key = some v) :
    ∃ p ∈ ps, p.1 = key := by
  obtain ⟨p, hp, -⟩ := Option.map_eq_some_iff.mp h
  exact ⟨p, List.mem_of_find?_eq_some hp, by simpa using List.find?_some hp⟩

namespace Encoder

theorem percent : E.keep 0x25 = false := by
  rw [← Bool.not_eq_true]
  intro h
  have := E.query _ h
  revert this
  decide

theorem encode_injective : Function.Injective E.encode := pctEncode_injective percent

theorem encode_eq_nil_iff : E.encode s = [] ↔ s = [] := by
  rw [← E.encode_injective.eq_iff (a := s)]
  rfl

/-- A character which is neither kept nor part of an escape does not occur in an encoded string. -/
theorem notMem_encode {c : UInt8} (hk : E.keep c = false) (hesc : isEscapeChar c = false) :
    c ∉ E.encode s := by
  intro h
  have h := of_mem_pctEncode h
  rw [hk, hesc] at h
  cases h

theorem notMem_pair {c : UInt8} (hk : E.keep c = false) (hesc : isEscapeChar c = false)
    (heq : c ≠ 0x3D) : c ∉ E.pair p := by
  obtain ⟨k, v⟩ := p
  cases v with
  | none => simpa [pair, tail] using notMem_encode hk hesc
  | some v =>
    simpa [pair, tail, heq] using
      ⟨notMem_encode (s := k) hk hesc, notMem_encode (s := v) hk hesc⟩

theorem notMem_toQuery {c : UInt8} (hk : E.keep c = false) (hesc : isEscapeChar c = false)
    (heq : c ≠ 0x3D) (hamp : c ≠ 0x26) : c ∉ E.toQuery ps := by
  induction ps with
  | nil => exact List.not_mem_nil
  | cons p ps ih =>
    have hp := notMem_pair (p := p) hk hesc heq
    cases ps with
    | nil => simpa [toQuery] using hp
    | cons q ps =>
      rw [toQuery, List.map_cons, List.map_cons, List.intercalate_cons_cons, ← List.map_cons,
        ← toQuery]
      simp [hp, hamp, ih]

/-! ## The decoded query -/

theorem pctDecode_pair_append (s : Bytes) :
    pctDecode (E.pair p ++ s) = p.1 ++ tail 0x3D p.2 ++ pctDecode s := by
  obtain ⟨k, v⟩ := p
  rw [pair, encode, List.append_assoc, pctDecode_pctEncode_append percent, List.append_assoc]
  cases v with
  | none => rfl
  | some v =>
    rw [Option.map_some, tail, List.cons_append, pctDecode_cons (by decide), encode,
      pctDecode_pctEncode_append percent]
    rfl

theorem pctDecode_toQuery : pctDecode (E.toQuery ps) = plainQuery ps := by
  induction ps with
  | nil => rfl
  | cons p ps ih =>
    cases ps with
    | nil =>
      have h := pctDecode_pair_append (E := E) (p := p) []
      simpa [toQuery, plainQuery, show pctDecode [] = [] from rfl] using h
    | cons q ps =>
      simp only [toQuery, plainQuery, List.map_cons, List.intercalate_cons_cons] at ih ⊢
      rw [List.append_assoc, pctDecode_pair_append, List.cons_append, List.nil_append,
        pctDecode_cons (by decide), ih, List.append_assoc (_ ++ _)]
      rfl

end Encoder

theorem isPctString_pair :
    isPctString isQueryChar (p.1 ++ tail 0x3D p.2) ↔
      isPctString isQueryChar p.1 ∧ ∀ v ∈ p.2, isPctString isQueryChar v := by
  obtain ⟨k, v⟩ := p
  cases v with
  | none => simp [tail]
  | some v =>
    rw [tail, isPctString_append_cons rfl rfl]
    simp

/-- The decoded query is well formed if and only if its keys and values are. -/
theorem isPctString_plainQuery :
    isPctString isQueryChar (plainQuery ps) ↔ ∀ p ∈ ps,
      isPctString isQueryChar p.1 ∧ ∀ v ∈ p.2, isPctString isQueryChar v := by
  induction ps with
  | nil => simp [plainQuery, isPctString, isPctRest]
  | cons p ps ih =>
    rw [List.forall_mem_cons, ← ih, ← isPctString_pair]
    cases ps with
    | nil => simp [plainQuery, isPctString, isPctRest]
    | cons q ps =>
      simp only [plainQuery, List.map_cons, List.intercalate_cons_cons]
      rw [List.append_assoc, List.cons_append, List.nil_append,
        isPctString_append_cons rfl rfl, Bool.and_eq_true]

/-! ## The encoded parameters -/

namespace Encoder

/-- A pair as `encoded_params` shows it. -/
def param (E : Encoder) (p : Bytes × Option Bytes) : QueryParam :=
  { key := E.encode p.1, value := E.encode (p.2.getD []), hasValue := p.2.isSome }

theorem queryParam_pair : queryParam (E.pair p) = E.param p := by
  obtain ⟨k, v⟩ := p
  have heq : 0x3D ∉ E.encode k := notMem_encode E.equals rfl
  rw [queryParam, pair, cut_append heq]
  cases v <;> rfl

theorem queryParams_toQuery (hps : ps ≠ []) :
    queryParams (some (E.toQuery ps)) = ps.map E.param := by
  rw [queryParams, toQuery, List.splitOn_intercalate, List.map_map]
  · exact List.map_congr_left fun p _ => queryParam_pair
  · intro l hl
    obtain ⟨p, -, rfl⟩ := List.mem_map.mp hl
    exact notMem_pair E.ampersand rfl (by decide)
  · simpa using hps

/-- What `ParseQuery` stores for a key: the encoded value of the first parameter whose encoded
key it is. -/
def storedValue (E : Encoder) (ps : Pairs) (key : Bytes) : Option Bytes :=
  (ps.find? (E.encode ·.1 = key)).map (E.encode <| ·.2.getD [])

end Encoder

/-- `ParseQuery` skips a parameter whose key is empty. -/
def named (ps : Pairs) : Pairs := ps.filter (·.1 ≠ [])

theorem named_eq_self (h : ∀ p ∈ ps, p.1 ≠ []) : named ps = ps :=
  List.filter_eq_self.mpr fun p hp => decide_eq_true (h p hp)

theorem parseQuery_of_encodedParams {B : BoostUrl} {u : B.Url} (hq : B.parseQuery (B.query u))
    (hp : B.encodedParams u = queryParams (some (E.toQuery ps))) :
    ∃ params, parseQuery B u = some params ∧
      ∀ key, params.lookup key = E.storedValue (named ps) key := by
  rw [parseQuery, if_pos hq, hp]
  refine ⟨_, rfl, fun key => ?_⟩
  by_cases hps : ps = []
  · -- the empty query is one parameter with an empty key
    subst ps
    rfl
  rw [Encoder.queryParams_toQuery hps, List.foldl_map]
  have hfold (m : Params) : ps.foldl (fun params p => if (E.param p).key ≠ [] then params.emplace
        (E.param p).key (if (E.param p).hasValue then (E.param p).value else []) else params) m =
      ((named ps).map fun p => (E.encode p.1, E.encode (p.2.getD []))).foldl
        (fun m p => m.emplace p.1 p.2) m := by
    rw [List.foldl_map, named, List.foldl_filter]
    refine List.foldl_ext _ _ _ fun m p _ => ?_
    obtain ⟨k, v⟩ := p
    cases v <;> simp [Encoder.param, Encoder.encode_eq_nil_iff, show E.encode [] = [] from rfl]
  rw [hfold, UnorderedMap.lookup_foldl_emplace, AList.lookup_empty, Option.none_or,
    List.find?_map, Option.map_map]
  rfl

namespace Encoder

theorem storedValue_of_keys (h : ∀ p ∈ ps, E.encode p.1 = p.1) :
    E.storedValue ps key = (firstValue ps key).map E.encode := by
  induction ps with
  | nil => rfl
  | cons p ps ih =>
    have ih := ih fun q hq => h q (List.mem_cons_of_mem _ hq)
    rw [storedValue, firstValue, List.find?_cons, List.find?_cons, h p (List.mem_cons_self ..)]
    split
    · rfl
    · exact ih

/-- If every key is stored, every key is left alone: an encoded key that differs from the key is
longer, so the keys up to a given length are the encodings of such keys. -/
theorem encode_key (h : ∀ p ∈ ps, ∃ q ∈ ps, E.encode q.1 = p.1) (hp : p ∈ ps) :
    E.encode p.1 = p.1 := by
  induction hn : p.1.length using Nat.strong_induction_on generalizing p with
  | _ n ih =>
    obtain ⟨q, hq, he⟩ := h p hp
    rcases pctEncode_length E.keep q.1 with hlen | hlen
    · have hqp : q.1 = p.1 := hlen.symm.trans he
      rw [← hqp]
      exact hlen
    · have hlt : q.1.length < n := by
        rw [← hn, ← he]
        exact hlen
      have heq := congrArg List.length (ih _ hlt hq rfl)
      exact absurd heq (Nat.ne_of_gt hlen)

theorem storedValue_eq_iff :
    (∀ key, E.storedValue ps key = firstValue ps key) ↔
      (∀ p ∈ ps, ∀ b ∈ p.1, E.keep b) ∧
        ∀ p ∈ ps, ∀ v ∈ firstValue ps p.1, ∀ b ∈ v, E.keep b := by
  constructor
  · intro h
    have hkeys : ∀ p ∈ ps, E.encode p.1 = p.1 := by
      refine fun p hp => encode_key (fun p hp => ?_) hp
      obtain ⟨r, hr⟩ : ∃ r, ps.find? (·.1 = p.1) = some r := by
        rw [← Option.isSome_iff_exists, List.find?_isSome]
        exact ⟨p, hp, by simp⟩
      have hs := h p.1
      rw [firstValue, hr, storedValue] at hs
      obtain ⟨q, hq, -⟩ := Option.map_eq_some_iff.mp hs
      exact ⟨q, List.mem_of_find?_eq_some hq, by simpa using List.find?_some hq⟩
    refine ⟨fun p hp => pctEncode_eq_self_iff.mp (hkeys p hp), fun p _ v hv => ?_⟩
    have hs := h p.1
    rw [storedValue_of_keys hkeys, Option.mem_def.mp hv] at hs
    exact pctEncode_eq_self_iff.mp (Option.some.inj hs)
  · rintro ⟨hkeys, hvalues⟩ key
    rw [storedValue_of_keys fun p hp => pctEncode_eq_self_iff.mpr (hkeys p hp)]
    cases hv : firstValue ps key with
    | none => rfl
    | some v =>
      obtain ⟨p, hp, rfl⟩ := exists_of_firstValue hv
      exact congrArg some (pctEncode_eq_self_iff.mpr (hvalues p hp v hv))

theorem transparent_iff :
    E.Transparent ps ↔ isPctString isQueryChar (plainQuery ps) ∧
      ∀ key, E.storedValue ps key = firstValue ps key := by
  rw [storedValue_eq_iff, isPctString_plainQuery, Transparent]
  constructor
  · rintro ⟨hkeys, hfirst, hvalues⟩
    refine ⟨fun p hp => ⟨isPctString_of_forall fun b hb => ?_, hvalues p hp⟩, hkeys, hfirst⟩
    have hk := hkeys p hp b hb
    refine ⟨E.query b hk, ?_⟩
    rintro rfl
    rw [E.percent] at hk
    cases hk
  · rintro ⟨hwf, hkeys, hfirst⟩
    exact ⟨hkeys, hfirst, fun p hp => (hwf p hp).2⟩

end Encoder

/-! ## `ParseQuery` on a parsed target -/

/-- The query of a URI which ends in its query. -/
theorem query_of_isUri {L : IpLiteral} {c : Components} {l q : Bytes}
    (hc : IsUri L (l ++ 0x3F :: q) c) (hl : 0x3F ∉ l ∧ 0x23 ∉ l) (hq : 0x23 ∉ q) :
    c.query = some q := by
  have hhash : 0x23 ∉ l ++ 0x3F :: q := by simp [hl.2, hq]
  have hcut := cut_append hhash none
  rw [tail, List.append_nil] at hcut
  have hcut' := cut_append hl.1 (some q)
  rw [tail] at hcut'
  rw [hc.query_eq, hcut, hcut']

/-- What Boost.URL gives for a parsed target that ends in the encoded parameters. -/
theorem url_of_toQuery {B : BoostUrl} {L : IpLiteral} (hB : B.Lawful L) (E : Encoder) {ps : Pairs}
    {isUpgrade : Bool} {endpoint : Endpoint} {path : Bytes} (hpath : 0x3F ∉ path ∧ 0x23 ∉ path)
    {u : B.Url} (hu : parseUri B (bytes (if isUpgrade then "ws" else "http")) endpoint
      (path ++ 0x3F :: E.toQuery ps) = some u) :
    B.encodedParams u = queryParams (some (E.toQuery ps)) ∧ B.query u = plainQuery ps := by
  have hscheme : 0x3F ∉ bytes (if isUpgrade then "ws" else "http") ∧
      0x23 ∉ bytes (if isUpgrade then "ws" else "http") := by
    cases isUpgrade <;> decide
  have h3F := notMem_uriText endpoint rfl (by decide) (by decide) (by decide) hscheme.1 hpath.1
  have h23 := notMem_uriText endpoint rfl (by decide) (by decide) (by decide) hscheme.2 hpath.2
  rw [parseUri, ← List.append_assoc] at hu
  obtain ⟨c, hc⟩ := hB.exists_isUri hu
  have hkeep : E.keep 0x23 = false := by
    rw [← Bool.not_eq_true]
    exact fun h => Bool.false_ne_true (E.query 0x23 h)
  have hhash : 0x23 ∉ E.toQuery ps := Encoder.notMem_toQuery hkeep rfl (by decide) (by decide)
  have hplus : 0x2B ∉ E.toQuery ps :=
    Encoder.notMem_toQuery E.plus rfl (by decide) (by decide)
  have hquery := query_of_isUri hc ⟨h3F, h23⟩ hhash
  constructor
  · rw [hB.encodedParams _ u c hu hc, hquery]
  · rw [hB.query _ u c hu hc (by rwa [hquery]), hquery]
    exact Encoder.pctDecode_toQuery

/-- For any percent-encoding and any parsed target that ends in the encoded parameters `ps`,
`ParseQuery` returns the map of the decoded keys to their decoded first values if and only if the
encoding is transparent for `ps`. -/
theorem parseQuery_iff {B : BoostUrl} {L : IpLiteral} (hB : B.Lawful L) (E : Encoder) {ps : Pairs}
    (hkeys : ∀ p ∈ ps, p.1 ≠ []) (isUpgrade : Bool) (endpoint : Endpoint) {path : Bytes}
    (hpath : 0x3F ∉ path ∧ 0x23 ∉ path) {u : B.Url}
    (hu : parseUri B (bytes (if isUpgrade then "ws" else "http")) endpoint
      (path ++ 0x3F :: E.toQuery ps) = some u) :
    (∃ params, parseQuery B u = some params ∧ ∀ key, params.lookup key = firstValue ps key) ↔
      E.Transparent ps := by
  obtain ⟨hparams, hplain⟩ := url_of_toQuery hB E hpath hu
  have hwf : B.parseQuery (B.query u) = isPctString isQueryChar (plainQuery ps) := by
    rw [hB.parseQuery, hplain]
  rw [Encoder.transparent_iff]
  constructor
  · rintro ⟨params, hp, hlookup⟩
    have hq : B.parseQuery (B.query u) := by
      by_contra hq
      rw [parseQuery, if_neg hq] at hp
      cases hp
    refine ⟨hwf ▸ hq, fun key => ?_⟩
    obtain ⟨params', hp', hstored⟩ := parseQuery_of_encodedParams hq hparams
    rw [named_eq_self hkeys] at hstored
    rw [hp] at hp'
    cases hp'
    rw [← hstored, hlookup]
  · rintro ⟨hq, hlookup⟩
    obtain ⟨params, hp, hstored⟩ := parseQuery_of_encodedParams (hwf ▸ hq) hparams
    rw [named_eq_self hkeys] at hstored
    exact ⟨params, hp, fun key => (hstored key).trans (hlookup key)⟩

/-- The URL of the target `/a` with a query, on port 8080 of the local host. -/
def localUrl (query : Bytes) : Components where
  scheme := bytes "http"
  authority := some
    { userinfo := none, host := .name (bytes "127.0.0.1"), port := some (bytes "8080") }
  path := bytes "/a"
  query := some query
  fragment := none

theorem parseQuery_iff_xy :
    ∃ params, parseQuery (BoostUrl.ofGrammar ⟨fun _ => false, nofun⟩)
        (localUrl (bytes "x=1&y")) = some params ∧ ∀ key, params.lookup key =
        firstValue [(bytes "x", some (bytes "1")), (bytes "y", none)] key :=
  (parseQuery_iff (BoostUrl.ofGrammar_lawful ⟨fun _ => false, nofun⟩) .unreserved
    (show ∀ p ∈ [(bytes "x", some (bytes "1")), (bytes "y", none)], p.1 ≠ [] by decide) false
    { address := .v4 127 0 0 1, port := 8080 }
    (show 0x3F ∉ bytes "/a" ∧ 0x23 ∉ bytes "/a" by decide)
    (BoostUrl.parseUri_ofGrammar.mpr ⟨by decide, by decide⟩)).mpr (by decide)

/-- The value `a b` is rejected: its decoded form is not a query. -/
theorem not_parseQuery_space :
    parseUri (BoostUrl.ofGrammar ⟨fun _ => false, nofun⟩) (bytes "http")
        { address := .v4 127 0 0 1, port := 8080 }
        (bytes "/a" ++ 0x3F :: Encoder.unreserved.toQuery [(bytes "x", some (bytes "a b"))]) =
        some (localUrl (bytes "x=a%20b")) ∧
      parseQuery (BoostUrl.ofGrammar ⟨fun _ => false, nofun⟩) (localUrl (bytes "x=a%20b")) = none :=
  ⟨BoostUrl.parseUri_ofGrammar.mpr ⟨by decide, by decide⟩, by decide⟩

end TheGame
