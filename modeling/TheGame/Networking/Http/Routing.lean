import TheGame.Networking.Http.Connection
import TheGame.Uri.Extension

/-!
# What a request target can reach

`OnRead` puts the target behind `scheme://address:port` and parses the whole. A target that does
not begin with a slash can still get to a route: its first characters may continue the port, or
make userinfo of the local endpoint.
-/

namespace TheGame.HttpSession
open Rfc3986

variable {H : Type*} {env : HttpEnv H} {s s' : HttpSession} {request : Request}
  {acts : List (Action H)} {L : IpLiteral} {u : env.url.Url} {w x y z : UInt8}

/-- The paths under which a callback or a WebSocket handler is selected. -/
def selected (acts : List (Action H)) : List Path :=
  acts.filterMap fun
    | .invoke _ path _ _ => some path
    | .webSocket path _ _ _ => some path
    | _ => none

/-- Under the path something is registered for the method of the request: for an upgrade a
WebSocket handler, else a callback. -/
def registered (env : HttpEnv H) (request : Request) (path : Path) : Bool :=
  let method := convertVerbBeast request.method
  if request.isUpgrade then (env.routeManager.getWSHandler method path).isSome
  else (env.routeManager.getCallback method path).isSome

/-- Whatever `OnRead` selects is registered under the path which the target gives, an absolute path
before the query. -/
def RoutingSound (env : HttpEnv H) (s : HttpSession) (request : Request) : Prop :=
  ∀ s' acts, onRead env s .success request = some (s', acts) → ∀ path ∈ selected acts,
    request.target.head? = some 0x2F ∧ pctDecode (beforeQuery request.target) = path

/-! ## The text that is parsed -/

/-- The local endpoint as `ParseUri` prints it. -/
def endpointText (endpoint : Endpoint) : Bytes :=
  endpoint.address.toString ++ 0x3A :: decimal endpoint.port.toNat

theorem isNameChar_of_mem_v4 {b : UInt8} (hb : b ∈ (Address.v4 w x y z).toString) :
    isNameChar b := by
  have hdec {n : Nat} (h : b ∈ decimal n) : isNameChar b :=
    isNameChar_of_isDigit (isDigit_of_mem_decimal h)
  simp only [Address.toString, List.intercalate, List.intersperse, List.flatten_cons,
    List.flatten_nil, List.mem_append, List.mem_singleton, List.append_nil] at hb
  obtain h | rfl | h | rfl | h | rfl | h := hb
  · exact hdec h
  · rfl
  · exact hdec h
  · rfl
  · exact hdec h
  · rfl
  · exact hdec h

theorem notMem_endpointText {endpoint : Endpoint} {b : UInt8} (hb : isUnreserved b = false)
    (hcolon : b ≠ 0x3A) (hpct : b ≠ 0x25) : b ∉ endpointText endpoint := by
  simp [endpointText, notMem_address hb hcolon hpct, hcolon, notMem_decimal hb]

/-- The endpoint ends before any of the delimiters of path, query and fragment. -/
theorem endpointText_delimiters (endpoint : Endpoint) :
    0x3F ∉ endpointText endpoint ∧ 0x23 ∉ endpointText endpoint ∧
      0x2F ∉ endpointText endpoint :=
  ⟨notMem_endpointText rfl (by decide) (by decide),
    notMem_endpointText rfl (by decide) (by decide),
    notMem_endpointText rfl (by decide) (by decide)⟩

/-- The scheme of the URI. -/
def scheme (request : Request) : Bytes := bytes (if request.isUpgrade then "ws" else "http")

theorem isScheme_scheme : isScheme (scheme request) := by
  unfold scheme
  split <;> decide

theorem uri_eq : uri env request = env.url.parseUri (scheme request ++ 0x3A :: 0x2F :: 0x2F ::
    (endpointText env.localEndpoint ++ request.target)) := by
  have hsep : bytes "://" = [0x3A, 0x2F, 0x2F] := by decide
  have hcolon : bytes ":" = [0x3A] := by decide
  simp [uri, parseUri, hsep, hcolon, endpointText, scheme]

/-- On an IPv4 endpoint the URI parses exactly if the beginning of the target continues the
endpoint and the rest is well formed. -/
theorem isSome_uri_iff (hB : env.url.Lawful L) (h4 : env.localEndpoint.address = .v4 w x y z) :
    (uri env request).isSome ↔
      Continues L (beforePath request.target) ∧ WellFormed request.target := by
  have hdigits : (decimal env.localEndpoint.port.toNat).all isDigit :=
    List.all_eq_true.mpr fun _ hb => isDigit_of_mem_decimal hb
  have hauth := exists_authority_iff (L := L) (s := beforePath request.target)
    (fun b hb => isNameChar_of_mem_v4 (w := w) (x := x) (y := y) (z := z) hb) hdigits
  obtain ⟨hquery, hfragment, hslash⟩ := endpointText_delimiters env.localEndpoint
  rw [uri_eq, hB.parseUri, exists_isUri_append_iff isScheme_scheme hquery hfragment hslash,
    ← hauth, endpointText, h4]

theorem path_uri (hB : env.url.Lawful L) (hu : uri env request = some u) :
    env.url.path u = pctDecode (pathPart request.target) := by
  rw [uri_eq] at hu
  obtain ⟨c, hc⟩ := hB.exists_isUri hu
  obtain ⟨hquery, hfragment, hslash⟩ := endpointText_delimiters env.localEndpoint
  rw [hB.path _ _ _ hu hc, hc.path_append isScheme_scheme hquery hfragment hslash]

/-! ## What `OnRead` selects -/

theorem selected_of_uri_none (hu : uri env request = none)
    (h : onRead env s .success request = some (s', acts)) : selected acts = [] := by
  rw [onRead_unparsed hu] at h
  cases hr : s.response with
  | none =>
    rw [respond_none hr] at h
    cases h
  | some r =>
    rw [respond_false hr] at h
    cases h
    rfl

theorem selected_of_uri (hu : uri env request = some u)
    (h : onRead env s .success request = some (s', acts)) :
    selected acts =
      if registered env request (env.url.path u) then [env.url.path u] else [] := by
  cases lookup_path env request (env.url.path u) with
  | webSocket hi hw =>
    rw [onRead_webSocket hu hi hw] at h
    cases h
    simp [registered, hi, hw, selected]
  | callback hi hc =>
    rw [onRead_callback hu hi hc rfl] at h
    cases h
    simp [registered, hi, hc, selected]
  | nothing hw hc =>
    rw [onRead_notFound hu hw hc] at h
    cases h
    have hreg : registered env request (env.url.path u) = false := by
      cases hi : request.isUpgrade with
      | true => simp [registered, hi, hw hi]
      | false => simp [registered, hi, hc hi]
    rw [hreg]
    rfl

theorem exists_onRead (hu : uri env request = some u) :
    ∃ s' acts, onRead env s .success request = some (s', acts) := by
  have hp : Parses env request = true := by simp [Parses, hu]
  have h := onRead_success env s request
  generalize onRead env s .success request = r at h ⊢
  cases h with
  | webSocket | invoke | notFound => exact ⟨_, _, rfl⟩
  | fault hp' => simp [hp] at hp'

/-- On an IPv4 endpoint, a request selects only what is registered under the path of its target if
and only if its target begins with a slash, or does not continue the endpoint to a URI, or nothing
is registered under the path after the part that does. -/
theorem routingSound_iff (hB : env.url.Lawful L)
    (h4 : env.localEndpoint.address = .v4 w x y z) :
    RoutingSound env s request ↔ request.target.head? = some 0x2F ∨
      ¬Continues L (beforePath request.target) ∨ ¬WellFormed request.target ∨
      registered env request (pctDecode (pathPart request.target)) = false := by
  have hsome : (uri env request).isSome ↔ _ := isSome_uri_iff hB h4
  cases hu : uri env request with
  | none =>
    refine iff_of_true (fun s' acts h path hm => ?_) (.inr ?_)
    · rw [selected_of_uri_none hu h] at hm
      cases hm
    · have : ¬(Continues L (beforePath request.target) ∧ WellFormed request.target) := by
        rw [← hsome, hu]
        simp
      tauto
  | some u =>
    rw [hu, Option.isSome_some] at hsome
    obtain ⟨hcont, hwf⟩ := hsome.mp rfl
    have hpath := path_uri hB hu
    cases hreg : registered env request (pctDecode (pathPart request.target)) with
    | false =>
      refine iff_of_true (fun s' acts h path hm => ?_) (.inr (.inr (.inr rfl)))
      rw [selected_of_uri hu h, hpath, hreg] at hm
      cases hm
    | true =>
      have hsel {s' : HttpSession} {acts : List (Action H)}
          (h : onRead env s .success request = some (s', acts)) :
          selected acts = [pctDecode (pathPart request.target)] := by
        rw [selected_of_uri hu h, hpath, hreg, if_pos rfl]
      constructor
      · intro hsound
        obtain ⟨s', acts, h⟩ := exists_onRead (s := s) hu
        exact .inl (hsound s' acts h _ (by rw [hsel h]; exact List.mem_singleton_self _)).1
      · rintro (hslash | hno | hno | hno) s' acts h path hm
        · rw [hsel h, List.mem_singleton] at hm
          exact ⟨hslash, by rw [hm, pathPart_eq hslash]⟩
        · exact absurd hcont hno
        · exact absurd hwf hno
        · cases hno

/-- A request for the path that has a callback. -/
theorem routingSound_iff_slash :
    RoutingSound Connection.localEnv {} (Connection.get (bytes "/?a=1") true) :=
  (routingSound_iff (BoostUrl.ofGrammar_lawful _) rfl).mpr (.inl (by decide))

theorem not_routingSound (hsel : (onRead env s .success request).any fun r => selected r.2 ≠ [])
    (hslash : request.target.head? ≠ some 0x2F) : ¬RoutingSound env s request := by
  intro h
  rw [Option.any_eq_true] at hsel
  obtain ⟨⟨s', acts⟩, hr, hne⟩ := hsel
  obtain ⟨path, hp⟩ := List.exists_mem_of_ne_nil _ (of_decide_eq_true hne)
  exact hslash (h s' acts hr path hp).1

/-- The callback for `/` is reached by a target that continues the port, and by one that makes
userinfo of the endpoint. -/
theorem exists_not_routingSound :
    ¬RoutingSound Connection.localEnv {} (Connection.get (bytes "0/") true) ∧
      ¬RoutingSound Connection.localEnv {} (Connection.get (bytes "@host/") true) :=
  ⟨not_routingSound (by decide +kernel) (by decide),
    not_routingSound (by decide +kernel) (by decide)⟩

end TheGame.HttpSession
