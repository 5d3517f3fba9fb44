import TheGame.Networking.Http.Routing

/-!
# The endpoint in the URI

`ParseUri` puts the address of the local endpoint into the URI as `to_string()` prints it. An IPv6
address has colons and would need brackets, so on an IPv6 endpoint no target makes a URI; on an
IPv4 endpoint every target in origin form comes back from the URI as it was.
-/

namespace TheGame
open Rfc3986 HttpSession

/-- The URL that `ParseUri` makes of a target has the path and the query of the target. -/
def Reconstructs (B : BoostUrl) (L : IpLiteral) (protocol : Bytes) (endpoint : Endpoint)
    (path : Bytes) (query : Option Bytes) : Prop :=
  ∃ u, parseUri B protocol endpoint (path ++ tail 0x3F query) = some u ∧
    B.path u = pctDecode path ∧ B.encodedParams u = queryParams query ∧
    (0x2B ∉ query.getD [] → B.query u = pctDecode (query.getD [])) ∧
    ∃ c, IsUri L (protocol ++ bytes "://" ++ endpoint.address.toString ++ bytes ":" ++
      decimal endpoint.port.toNat ++ (path ++ tail 0x3F query)) c ∧ c.path = path ∧ c.query = query

def Address.isV4 : Address → Bool
  | .v4 .. => true
  | .v6 _ => false

variable {B : BoostUrl} {L : IpLiteral} {protocol path target : Bytes} {endpoint : Endpoint}
  {query : Option Bytes}

theorem uriText_eq : protocol ++ bytes "://" ++ endpoint.address.toString ++ bytes ":" ++
    decimal endpoint.port.toNat ++ target =
      protocol ++ 0x3A :: 0x2F :: 0x2F :: (endpointText endpoint ++ target) := by
  have hsep : bytes "://" = [0x3A, 0x2F, 0x2F] := by decide
  have hcolon : bytes ":" = [0x3A] := by decide
  simp [hsep, hcolon, endpointText]

/-- Only the text of an IPv4 endpoint is an authority. -/
theorem exists_authority_endpointText_iff :
    (∃ a : Authority, a.toBytes = endpointText endpoint ∧ a.valid L) ↔
      endpoint.address.isV4 = true := by
  obtain ⟨address, port⟩ := endpoint
  cases address with
  | v4 w x y z =>
    have hdigits : (decimal port.toNat).all isDigit :=
      List.all_eq_true.mpr fun _ hb => isDigit_of_mem_decimal hb
    have hauth := exists_authority_iff (L := L) (s := [])
      (fun b hb => isNameChar_of_mem_v4 (w := w) (x := x) (y := y) (z := z) hb) hdigits
    rw [List.append_nil] at hauth
    exact iff_of_true (hauth.mpr (.inl rfl)) rfl
  | v6 t =>
    refine iff_of_false ?_ Bool.false_ne_true
    rintro ⟨a, ha, hv⟩
    have hat : 0x40 ∉ a.toBytes := by
      rw [ha]
      exact notMem_endpointText rfl (by decide) (by decide)
    have hopen : 0x5B ∉ a.toBytes := by
      rw [ha]
      exact notMem_endpointText rfl (by decide) (by decide)
    have hcount := a.count_colon_le hv hat hopen
    rw [ha, endpointText, List.count_append] at hcount
    exact absurd (Nat.le_trans (Nat.le_add_right _ _) hcount) (Nat.not_le.mpr t.colons)

theorem head?_append_tail (hhead : path.head? = some 0x2F) :
    (path ++ tail 0x3F query).head? = some 0x2F := by
  rw [List.head?_append, hhead]
  rfl

/-- What `ParseUri` parses is a URI exactly on an IPv4 endpoint. -/
theorem exists_isUri_iff (hprotocol : isScheme protocol) (hhead : path.head? = some 0x2F)
    (hpath : isPctString isPathChar path) (hquery : query.all (isPctString isQueryChar)) :
    (∃ c, IsUri L (protocol ++ bytes "://" ++ endpoint.address.toString ++ bytes ":" ++
      decimal endpoint.port.toNat ++ (path ++ tail 0x3F query)) c) ↔
        endpoint.address.isV4 = true := by
  obtain ⟨hquest, hhash, hslash⟩ := endpointText_delimiters endpoint
  have htarget : (path ++ tail 0x3F query).head? = some 0x2F := head?_append_tail hhead
  obtain ⟨h1, h2, h3⟩ := parts_append_tail hpath hquery
  have hwf : WellFormed (path ++ tail 0x3F query) := by
    rw [WellFormed, pathPart_eq htarget, h1, h2, h3]
    exact ⟨hpath, hquery, rfl⟩
  rw [uriText_eq, exists_isUri_append_iff hprotocol hquest hhash hslash, beforePath_eq_nil htarget,
    List.append_nil, exists_authority_endpointText_iff, and_iff_left hwf]

/-- For every endpoint, both protocols and every target in origin form, the URL that `ParseUri`
makes has the path and the query of the target if and only if the address is an IPv4 address. -/
theorem reconstructs_iff (hB : B.Lawful L) (isUpgrade : Bool) (endpoint : Endpoint)
    (hhead : path.head? = some 0x2F) (hpath : isPctString isPathChar path)
    (hquery : query.all (isPctString isQueryChar)) :
    Reconstructs B L (bytes (if isUpgrade then "ws" else "http")) endpoint path query ↔
      endpoint.address.isV4 = true := by
  have hprotocol : isScheme (bytes (if isUpgrade then "ws" else "http")) := by
    cases isUpgrade <;> decide
  rw [← exists_isUri_iff (L := L) hprotocol hhead hpath hquery]
  constructor
  · rintro ⟨u, -, -, -, -, c, hc, -⟩
    exact ⟨c, hc⟩
  · rintro ⟨c, hc⟩
    obtain ⟨u, hu⟩ := Option.isSome_iff_exists.mp ((hB.parseUri _).mpr ⟨c, hc⟩)
    obtain ⟨hquest, hhash, hslash⟩ := endpointText_delimiters endpoint
    obtain ⟨h1, h2, -⟩ := parts_append_tail hpath hquery
    have hc' := uriText_eq ▸ hc
    have hcpath : c.path = path := by
      rw [hc'.path_append hprotocol hquest hhash hslash, pathPart_eq (head?_append_tail hhead), h1]
    have hcquery : c.query = query := by
      rw [hc'.query_append hprotocol hquest hhash hslash, h2]
    refine ⟨u, hu, ?_, ?_, fun hplus => ?_, c, hc, hcpath, hcquery⟩
    · rw [hB.path _ u c hu hc, hcpath]
    · rw [hB.encodedParams _ u c hu hc, hcquery]
    · rw [← hcquery] at hplus ⊢
      exact hB.query _ u c hu hc hplus

/-- A target with a query, on port 8080 of the local host. -/
theorem reconstructs_iff_local :
    Reconstructs (.ofGrammar ⟨fun _ => false, nofun⟩) ⟨fun _ => false, nofun⟩ (bytes "http")
      { address := .v4 127 0 0 1, port := 8080 } (bytes "/a") (some (bytes "x=1")) :=
  (reconstructs_iff (BoostUrl.ofGrammar_lawful _) false { address := .v4 127 0 0 1, port := 8080 }
    rfl (by decide) (by decide)).mpr rfl

/-- The local host of IPv6 -/
def loopback : Ipv6Text := ⟨bytes "::1", by decide, by decide +kernel⟩

/-- On port 8080 of the local host of IPv6 not even `/` makes a URI. -/
theorem exists_not_reconstructs :
    parseUri (.ofGrammar ⟨fun _ => false, nofun⟩) (bytes "http")
      { address := .v6 loopback, port := 8080 } (bytes "/") = none ∧
    ¬Reconstructs (.ofGrammar ⟨fun _ => false, nofun⟩) ⟨fun _ => false, nofun⟩ (bytes "http")
      { address := .v6 loopback, port := 8080 } (bytes "/") none := by
  have hnone : parseUri (.ofGrammar ⟨fun _ => false, nofun⟩) (bytes "http")
      { address := .v6 loopback, port := 8080 } (bytes "/") = none := by decide +kernel
  refine ⟨hnone, ?_⟩
  rintro ⟨u, hu, -⟩
  rw [tail, List.append_nil, hnone] at hu
  cases hu

end TheGame
