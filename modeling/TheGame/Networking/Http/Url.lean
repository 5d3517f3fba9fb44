import TheGame.Networking.Http.Common
import TheGame.Uri.Grammar

/-!
# `ParseUri` and `ParseQuery`

The two helpers of `http_session.cpp`. Boost.URL is a parameter, with the functions the source
calls; `BoostUrl.Lawful` is what its documentation says of them in terms of the grammar, and
`BoostUrl.ofGrammar` is an implementation that has these properties. IP literals have the syntax
`L`.
-/

namespace TheGame
open Rfc3986

/-- What `to_string()` prints for an IPv6 address: colon notation without brackets, with a zone
after a percent sign. -/
structure Ipv6Text where
  text : Bytes
  colons : 2 ≤ text.count 0x3A
  chars : ∀ b ∈ text, isUnreserved b ∨ b = 0x3A ∨ b = 0x25

inductive Address
  | v4 (a b c d : UInt8)
  | v6 (text : Ipv6Text)

/-- `basic_endpoint<tcp>` -/
structure Endpoint where
  address : Address
  port : UInt16

/-- `std::to_string` of a natural number. -/
def decimal (n : Nat) : Bytes := (Nat.toDigits 10 n).map fun c => c.toNat.toUInt8

/-- `address::to_string`. -/
def Address.toString : Address → Bytes
  | .v4 a b c d => [0x2E].intercalate [decimal a.toNat, decimal b.toNat, decimal c.toNat,
      decimal d.toNat]
  | .v6 t => t.text

/-- `boost::urls::param_pct_view` -/
structure QueryParam where
  key : Bytes
  value : Bytes
  hasValue : Bool
deriving DecidableEq

/-- The functions of Boost.URL which the source calls. `parseQuery` is `has_value()` of the result
of `parse_query`. -/
structure BoostUrl where
  Url : Type
  parseUri : Bytes → Option Url
  path : Url → Bytes
  query : Url → Bytes
  encodedParams : Url → List QueryParam
  parseQuery : Bytes → Bool

section
variable (B : BoostUrl)

/-- `ParseUri`. -/
def parseUri (protocol : Bytes) (endpoint : Endpoint) (target : Bytes) : Option B.Url :=
  let localAddress := endpoint.address.toString
  let port := decimal endpoint.port.toNat
  B.parseUri (protocol ++ bytes "://" ++ localAddress ++ bytes ":" ++ port ++ target)

/-- `ParseQuery`. -/
def parseQuery (url : B.Url) : Option Params :=
  if B.parseQuery (B.query url) then
    some ((B.encodedParams url).foldl (fun params q =>
      if q.key ≠ [] then params.emplace q.key (if q.hasValue then q.value else []) else params) ∅)
  else none

end

/-- The parameter which the part of a query between two ampersands stands for. -/
def queryParam (s : Bytes) : QueryParam :=
  match cut 0x3D s with
  | (key, none) => { key, value := [], hasValue := false }
  | (key, some value) => { key, value, hasValue := true }

def queryParams : Option Bytes → List QueryParam
  | none => []
  | some q => (q.splitOn 0x26).map queryParam

namespace BoostUrl

/-- Boost.URL follows RFC 3986. Of a plus sign in the query nothing is assumed. -/
structure Lawful (B : BoostUrl) (L : IpLiteral) : Prop where
  parseUri : ∀ s, (B.parseUri s).isSome ↔ ∃ c, IsUri L s c
  path : ∀ s u c, B.parseUri s = some u → IsUri L s c → B.path u = pctDecode c.path
  query : ∀ s u c, B.parseUri s = some u → IsUri L s c → 0x2B ∉ c.query.getD [] →
    B.query u = pctDecode (c.query.getD [])
  encodedParams : ∀ s u c, B.parseUri s = some u → IsUri L s c →
    B.encodedParams u = queryParams c.query
  parseQuery : ∀ s, B.parseQuery s = isPctString isQueryChar s

def ofGrammar (L : IpLiteral) : BoostUrl where
  Url := Components
  parseUri := parse L
  path u := pctDecode u.path
  query u := pctDecode (u.query.getD [])
  encodedParams u := queryParams u.query
  parseQuery := isPctString isQueryChar

theorem ofGrammar_lawful (L : IpLiteral) : (ofGrammar L).Lawful L where
  parseUri s := by
    rw [Option.isSome_iff_exists]
    exact exists_congr fun c => parse_eq_some_iff
  path s u c hu hc := by rw [(parse_eq_some_iff.mp hu).unique hc]; rfl
  query s u c hu hc _ := by rw [(parse_eq_some_iff.mp hu).unique hc]; rfl
  encodedParams s u c hu hc := by rw [(parse_eq_some_iff.mp hu).unique hc]; rfl
  parseQuery _ := rfl

theorem parseUri_ofGrammar {L : IpLiteral} {protocol target : Bytes} {endpoint : Endpoint}
    {c : Components} : TheGame.parseUri (ofGrammar L) protocol endpoint target = some c ↔
      IsUri L (protocol ++ bytes "://" ++ endpoint.address.toString ++ bytes ":" ++
        decimal endpoint.port.toNat ++ target) c := parse_eq_some_iff

theorem Lawful.exists_isUri {B : BoostUrl} {L : IpLiteral} (hB : B.Lawful L) {s : Bytes}
    {u : B.Url} (hu : B.parseUri s = some u) : ∃ c, IsUri L s c :=
  (hB.parseUri s).mp (by rw [hu]; rfl)

end BoostUrl

/-! ## The text before the target -/

theorem isDigit_toUInt8 {c : Char} (h : c.isDigit) : isDigit c.toNat.toUInt8 := by
  simp only [Char.isDigit, Bool.and_eq_true, decide_eq_true_eq, UInt32.le_iff_toNat_le,
    ge_iff_le] at h
  obtain ⟨h1, h2⟩ := h
  change 48 ≤ c.toNat at h1
  change c.toNat ≤ 57 at h2
  simp only [isDigit, Bool.and_eq_true, decide_eq_true_eq, UInt8.le_iff_toNat_le, Nat.toUInt8_eq,
    UInt8.toNat_ofNat']
  rw [Nat.mod_eq_of_lt (by omega)]
  exact ⟨h1, h2⟩

theorem isDigit_of_mem_decimal {n : Nat} {b : UInt8} (h : b ∈ decimal n) : isDigit b := by
  obtain ⟨c, hc, rfl⟩ := List.mem_map.mp h
  exact isDigit_toUInt8 (Nat.isDigit_of_mem_toDigits (by decide) (by decide) hc)

theorem notMem_decimal {n : Nat} {b : UInt8} (hb : isUnreserved b = false) : b ∉ decimal n := by
  intro hm
  have h := isDigit_of_mem_decimal hm
  simp [isUnreserved, h] at hb

/-- The local address contains no delimiter of path, query or fragment. -/
theorem notMem_address {address : Address} {b : UInt8} (hb : isUnreserved b = false)
    (hcolon : b ≠ 0x3A) (hpct : b ≠ 0x25) : b ∉ address.toString := by
  cases address with
  | v4 w x y z =>
    have hdot : b ≠ 0x2E := by
      rintro rfl
      cases hb
    simp [Address.toString, List.intercalate, List.intersperse, notMem_decimal hb, hdot]
  | v6 t =>
    intro hm
    rcases t.chars b hm with h | rfl | rfl
    · rw [hb] at h
      cases h
    · exact hcolon rfl
    · exact hpct rfl

/-- A delimiter of query or fragment is in the text that `ParseUri` parses only if it is in the
protocol or the target. -/
theorem notMem_uriText (endpoint : Endpoint) {protocol target : Bytes} {b : UInt8}
    (hb : isUnreserved b = false) (hcolon : b ≠ 0x3A) (hslash : b ≠ 0x2F) (hpct : b ≠ 0x25)
    (hprotocol : b ∉ protocol) (htarget : b ∉ target) :
    b ∉ protocol ++ bytes "://" ++ endpoint.address.toString ++ bytes ":" ++
      decimal endpoint.port.toNat ++ target := by
  have hsep : b ∉ bytes "://" := by
    show b ∉ [0x3A, 0x2F, 0x2F]
    simp [hcolon, hslash]
  have hport : b ∉ bytes ":" := by
    show b ∉ [0x3A]
    simp [hcolon]
  simp only [List.mem_append, not_or]
  exact ⟨⟨⟨⟨⟨hprotocol, hsep⟩, notMem_address hb hcolon hpct⟩, hport⟩, notMem_decimal hb⟩, htarget⟩

end TheGame
