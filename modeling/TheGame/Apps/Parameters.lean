import TheGame.Apps.Availability
import TheGame.Networking.Http.Query

/-!
# What becomes of the parameters of a request

`GET /test` shows the parameters of its query, and `POST /test/set_state` looks for a delay among
them. Both get what `ParseQuery` has stored: the keys and values as they are encoded, the first
value of each key that is not empty, and nothing at all if the decoded query is no query string.
-/

namespace TheGame
open Mealy Rfc3986

/-! ## `std::stoi` -/

/-- `std::to_string` of an integer. -/
def decimalInt (n : Int) : Bytes :=
  if n < 0 then 0x2D :: decimal n.natAbs else decimal n.natAbs

/-- The value of digits that follow the number `n`. -/
theorem foldl_digits {cs : List Char} (h : ∀ c ∈ cs, c.isDigit) (n : Nat) :
    (cs.map fun c => c.toNat.toUInt8).foldl (fun (n : Int) b => 10 * n + (b.toNat - 48)) n =
      (Nat.ofDigitChars 10 cs n : Nat) := by
  induction cs generalizing n with
  | nil => simp
  | cons c cs ih =>
    have hc := h c List.mem_cons_self
    simp only [Char.isDigit, Bool.and_eq_true, decide_eq_true_eq, UInt32.le_iff_toNat_le,
      ge_iff_le] at hc
    obtain ⟨h1, h2⟩ := hc
    change 48 ≤ c.toNat at h1
    change c.toNat ≤ 57 at h2
    have hb : c.toNat.toUInt8.toNat = c.toNat := by
      rw [Nat.toUInt8_eq, UInt8.toNat_ofNat', Nat.mod_eq_of_lt (by omega)]
    have hn : 10 * (n : Int) + (c.toNat.toUInt8.toNat - 48) =
        ((10 * n + (c.toNat - 48) : Nat) : Int) := by
      rw [hb]
      omega
    rw [List.map_cons, List.foldl_cons, hn, ih fun c hc => h c (List.mem_cons_of_mem _ hc),
      Nat.ofDigitChars_cons]
    rfl

theorem foldl_decimal (n : Nat) :
    (decimal n).foldl (fun (n : Int) b => 10 * n + (b.toNat - 48)) 0 = n := by
  have hdigits : ∀ c ∈ Nat.toDigits 10 n, c.isDigit :=
    fun c hc => Nat.isDigit_of_mem_toDigits (by decide) (by decide) hc
  have h := foldl_digits hdigits 0
  rw [Nat.ofDigitChars_ten_toDigits] at h
  exact h

theorem exists_decimal (n : Nat) : ∃ b s, decimal n = b :: s := by
  cases h : decimal n with
  | nil => exact absurd (List.map_eq_nil_iff.mp h) Nat.toDigits_ne_nil
  | cons b s => exact ⟨b, s, rfl⟩

theorem takeWhile_decimal (n : Nat) :
    (decimal n).takeWhile (fun c => 48 ≤ c ∧ c ≤ 57) = decimal n := by
  refine List.takeWhile_eq_self_iff.mpr fun b hb => ?_
  have h := isDigit_of_mem_decimal hb
  simpa [isDigit] using h

/-- A digit is no blank and no sign. -/
theorem ne_of_isDigit {b : UInt8} (h : isDigit b) :
    ¬(b = 32 ∨ (9 ≤ b ∧ b ≤ 13)) ∧ b ≠ 45 ∧ b ≠ 43 := by
  simp only [isDigit, Bool.and_eq_true, decide_eq_true_eq] at h
  obtain ⟨h1, -⟩ := h
  refine ⟨?_, ?_, ?_⟩
  · rintro (rfl | ⟨-, h2⟩)
    · exact absurd h1 (by decide)
    · exact absurd (UInt8.le_trans h1 h2) (by decide)
  · rintro rfl
    exact absurd h1 (by decide)
  · rintro rfl
    exact absurd h1 (by decide)

/-- What `std::stoi` makes of a number that has been printed. -/
theorem stoi_decimalInt (n : Int) :
    stoi (decimalInt n) = if -2147483648 ≤ n ∧ n ≤ 2147483647 then some n else none := by
  obtain ⟨b, s, hbs⟩ := exists_decimal n.natAbs
  have htake := takeWhile_decimal n.natAbs
  have hfold := foldl_decimal n.natAbs
  unfold decimalInt
  split <;> rename_i hn
  · have hblank : (0x2D :: decimal n.natAbs).dropWhile (fun c => c = 32 ∨ (9 ≤ c ∧ c ≤ 13)) =
        0x2D :: decimal n.natAbs := List.dropWhile_cons_of_neg (by decide)
    have hne : decimal n.natAbs ≠ [] := hbs ▸ List.cons_ne_nil b s
    have hneg : -(n.natAbs : Int) = n := by omega
    simp only [stoi, hblank, htake, if_neg hne, hfold, if_true, hneg]
  · obtain ⟨hblank, hminus, hplus⟩ := ne_of_isDigit (isDigit_of_mem_decimal
      (show b ∈ decimal n.natAbs from hbs ▸ List.mem_cons_self))
    have hdrop : (b :: s).dropWhile (fun c => c = 32 ∨ (9 ≤ c ∧ c ≤ 13)) = b :: s :=
      List.dropWhile_cons_of_neg (by simpa using hblank)
    have hpos : (n.natAbs : Int) = n := by omega
    rw [hbs] at htake hfold ⊢
    simp only [stoi, hdrop]
    split
    · cases ‹b :: s = _›
      exact absurd rfl hminus
    · cases ‹b :: s = _›
      exact absurd rfl hplus
    · simp only [htake, if_neg (List.cons_ne_nil b s), hfold, Bool.false_eq_true, if_false, hpos]

/-! ## What `ParseQuery` stores -/

variable {L : IpLiteral} {E : Encoder} {ps : Pairs} {path : Bytes} {params : Option Params}

/-- The encoded parameters are those of the encoded keys and values. -/
theorem Encoder.toQuery_eq :
    E.toQuery ps = plainQuery (ps.map fun p => (E.encode p.1, p.2.map E.encode)) := by
  rw [toQuery, plainQuery, List.map_map]
  rfl

theorem Encoder.isPctString_toQuery : isPctString isQueryChar (E.toQuery ps) := by
  rw [toQuery_eq, isPctString_plainQuery]
  intro q hq
  obtain ⟨p, -, rfl⟩ := List.mem_map.mp hq
  refine ⟨isPctString_pctEncode percent E.query _, fun v hv => ?_⟩
  obtain ⟨w, -, rfl⟩ := Option.map_eq_some_iff.mp hv
  exact isPctString_pctEncode percent E.query _

/-- What `ParseQuery` makes of encoded parameters. -/
def Encoder.Stored (E : Encoder) (ps : Pairs) : Option Params → Prop
  | some params =>
    isPctString isQueryChar (plainQuery ps) = true ∧
      ∀ key, params.lookup key = E.storedValue (named ps) key
  | none => isPctString isQueryChar (plainQuery ps) = false

/-- A target that is a path with encoded parameters. -/
structure IsTarget (E : Encoder) (ps : Pairs) (path target : Bytes) : Prop where
  eq : target = path ++ 0x3F :: E.toQuery ps
  head : path.head? = some 0x2F
  path : isPctString isPathChar path = true

namespace IsTarget
open HttpSession (uri)

variable {H : Type*} {env : HttpEnv H} {request : Request} {u : env.url.Url}

theorem exists_uri (h : IsTarget E ps path request.target) (hB : env.url.Lawful L)
    (h4 : env.localEndpoint.address.isV4 = true) :
    ∃ u, uri env request = some u ∧ env.url.path u = pctDecode path := by
  have hprotocol : isScheme (bytes (if request.isUpgrade then "ws" else "http")) := by
    cases request.isUpgrade <;> decide
  have hquery : (some (E.toQuery ps)).all (isPctString isQueryChar) := Encoder.isPctString_toQuery
  have hsome : (uri env request).isSome := by
    have huri := (exists_isUri_iff (L := L) hprotocol h.head h.path hquery).mpr h4
    refine (hB.parseUri _).mpr ?_
    rw [h.eq]
    exact huri
  obtain ⟨u, hu⟩ := Option.isSome_iff_exists.mp hsome
  refine ⟨u, hu, (HttpSession.path_uri hB hu).trans ?_⟩
  have htail : request.target = path ++ tail 0x3F (some (E.toQuery ps)) := h.eq
  rw [htail, pathPart_eq (head?_append_tail h.head), (parts_append_tail h.path hquery).1]

theorem stored (h : IsTarget E ps path request.target) (hB : env.url.Lawful L)
    (hu : uri env request = some u) : E.Stored ps (parseQuery env.url u) := by
  have hpath : 0x3F ∉ path ∧ 0x23 ∉ path :=
    ⟨notMem_of_isPctString h.path rfl, notMem_of_isPctString h.path rfl⟩
  have hu' : parseUri env.url (bytes (if request.isUpgrade then "ws" else "http"))
      env.localEndpoint (path ++ 0x3F :: E.toQuery ps) = some u := h.eq ▸ hu
  obtain ⟨hparams, hplain⟩ := url_of_toQuery hB E hpath hu'
  have hwf : env.url.parseQuery (env.url.query u) = isPctString isQueryChar (plainQuery ps) := by
    rw [hB.parseQuery, hplain]
  by_cases hq : env.url.parseQuery (env.url.query u) = true
  · obtain ⟨params, hp, hlookup⟩ := parseQuery_of_encodedParams hq hparams
    rw [hp]
    exact ⟨hwf ▸ hq, hlookup⟩
  · rw [parseQuery, if_neg hq]
    exact hwf.symm.trans (Bool.eq_false_iff.mpr hq)

end IsTarget

/-- A read completes with a request that has encoded parameters, and a callback. -/
theorem Connection.step_toQuery {H : Type*} {env : HttpEnv H} {k : Connection} {request : Request}
    {cb : HttpCallback} {method : HttpMethod} (h : IsTarget E ps path request.target)
    (hB : env.url.Lawful L) (h4 : env.localEndpoint.address.isV4 = true) (hpos : 0 < k.reads)
    (hi : request.isUpgrade = false) (hm : convertVerbBeast request.method = method)
    (hc : env.routeManager.getCallback method (pctDecode path) = some cb) :
    ∃ k' params, E.Stored ps params ∧ k.step env (.readDone .success request) = some (k',
      [.invoke method (pctDecode path) request params,
        .write (cb request params (HttpSession.freshResponse request)).preparePayload]) := by
  obtain ⟨u, hu, hpath⟩ := h.exists_uri hB h4
  rw [← hpath, ← hm] at hc
  obtain ⟨k', hk⟩ := step_callback hpos hu hi hc rfl
  rw [hpath, hm] at hk
  exact ⟨k', _, h.stored hB hu, hk⟩

/-- The first parameter of each key. -/
def firsts : Pairs → Pairs
  | [] => []
  | p :: ps => p :: (firsts ps).filter (·.1 ≠ p.1)

theorem mem_firsts {p : Bytes × Option Bytes} : p ∈ firsts ps ↔ ps.find? (·.1 = p.1) = some p := by
  induction ps with
  | nil => simp [firsts]
  | cons q ps ih =>
    rw [firsts, List.mem_cons, List.mem_filter, ih, List.find?_cons]
    by_cases h : q.1 = p.1
    · simp [h, eq_comm]
    · have hne : p ≠ q := fun he => h (congrArg Prod.fst he).symm
      simp [h, hne, Ne.symm h]

theorem nodup_firsts : ((firsts ps).map Prod.fst).Nodup := by
  induction ps with
  | nil => exact List.nodup_nil
  | cons p ps ih =>
    rw [firsts, List.map_cons, List.nodup_cons]
    refine ⟨fun h => ?_, ih.sublist (List.filter_sublist.map _)⟩
    obtain ⟨q, hq, heq⟩ := List.mem_map.mp h
    exact of_decide_eq_true (List.mem_filter.mp hq).2 heq

/-- The entries of what is stored: the first parameter of each key, encoded. -/
theorem Encoder.Stored.perm {params : Params} (h : E.Stored ps (some params)) :
    (UnorderedMap.toPairs params).Perm
      ((firsts (named ps)).map fun p => (E.encode p.1, E.encode (p.2.getD []))) := by
  have hkeys : ((UnorderedMap.toPairs params).map Prod.fst).Nodup := by
    have h : (UnorderedMap.toPairs params).map Prod.fst = params.entries.keys := by
      simp [UnorderedMap.toPairs, List.keys]
    rw [h]
    exact params.nodupKeys
  have hfirsts : ((firsts (named ps)).map fun p =>
      (E.encode p.1, E.encode (p.2.getD []))).Nodup := by
    have h : ((firsts (named ps)).map fun p => E.encode p.1).Nodup := by
      have h : (((firsts (named ps)).map Prod.fst).map E.encode).Nodup :=
        nodup_firsts.map E.encode_injective
      rwa [List.map_map] at h
    refine List.Nodup.of_map Prod.fst ?_
    rwa [List.map_map]
  refine (List.perm_ext_iff_of_nodup (.of_map _ hkeys) hfirsts).mpr ?_
  rintro ⟨key, value⟩
  rw [UnorderedMap.mem_toPairs, h.2 key, storedValue, Option.map_eq_some_iff, List.mem_map]
  have hfind (k : Bytes) :
      (named ps).find? (fun p => E.encode p.1 = E.encode k) =
        (named ps).find? (fun p => p.1 = k) := by
    simp only [E.encode_injective.eq_iff]
  refine exists_congr fun p => ?_
  rw [mem_firsts, Prod.mk.injEq]
  constructor
  · rintro ⟨hp, rfl⟩
    obtain rfl : E.encode p.1 = key := by simpa using List.find?_some hp
    exact ⟨(hfind p.1).symm.trans hp, rfl, rfl⟩
  · rintro ⟨hp, rfl, rfl⟩
    exact ⟨(hfind p.1).trans hp, rfl⟩

/-- The delay that `set_state` takes from encoded parameters. -/
def Encoder.delaySecs (E : Encoder) (ps : Pairs) : Option Int :=
  if isPctString isQueryChar (plainQuery ps) then
    (E.storedValue (named ps) (bytes "delay")).map fun delay => (stoi delay).getD 0
  else none

theorem Encoder.Stored.delaySecs (h : E.Stored ps params) :
    World.delaySecs params = E.delaySecs ps := by
  cases params with
  | none =>
    rw [Encoder.delaySecs, if_neg (ne_true_of_eq_false h)]
    rfl
  | some params =>
    rw [Encoder.delaySecs, if_pos h.1, ← h.2]
    rfl

/-- A number needs no encoding. -/
theorem Encoder.encode_decimalInt (n : Int) : unreserved.encode (decimalInt n) = decimalInt n := by
  refine pctEncode_eq_self_iff.mpr fun b hb => ?_
  have hdigit (h : b ∈ decimal n.natAbs) : isUnreserved b := by
    simp [isUnreserved, isDigit_of_mem_decimal h]
  unfold decimalInt at hb
  split at hb
  · rcases List.mem_cons.mp hb with rfl | hb
    · exact (by decide : isUnreserved 0x2D = true)
    · exact hdigit hb
  · exact hdigit hb

theorem Encoder.toQuery_delay (n : Int) :
    unreserved.toQuery [(bytes "delay", some (decimalInt n))] =
      bytes "delay=" ++ decimalInt n := by
  have hkey : unreserved.encode (bytes "delay") ++ [0x3D] = bytes "delay=" := by decide
  rw [toQuery, List.map_singleton, List.intercalate_singleton, pair, Option.map_some, tail,
    encode_decimalInt, ← hkey, List.append_assoc]
  rfl

/-- A delay that is a number is that number, or zero if it is no `int`. -/
theorem Encoder.delaySecs_decimalInt (n : Int) :
    unreserved.delaySecs [(bytes "delay", some (decimalInt n))] =
      some (if -2147483648 ≤ n ∧ n ≤ 2147483647 then n else 0) := by
  have hwf : isPctString isQueryChar (plainQuery [(bytes "delay", some (decimalInt n))]) := by
    rw [isPctString_plainQuery]
    intro p hp
    cases List.mem_singleton.mp hp
    have hkey : isPctString isQueryChar (bytes "delay") := by decide
    refine ⟨hkey, fun v hv => ?_⟩
    cases hv
    rw [← encode_decimalInt]
    exact isPctString_pctEncode percent unreserved.query _
  have hstored : unreserved.storedValue [(bytes "delay", some (decimalInt n))] (bytes "delay") =
      some (decimalInt n) := by
    have hkey : unreserved.encode (bytes "delay") = bytes "delay" := by decide
    rw [storedValue, List.find?_cons_of_pos (by simp [hkey])]
    exact congrArg some (encode_decimalInt n)
  have hnamed : named [(bytes "delay", some (decimalInt n))] =
      [(bytes "delay", some (decimalInt n))] :=
    named_eq_self (List.forall_mem_singleton.mpr (by decide : bytes "delay" ≠ []))
  rw [delaySecs, if_pos hwf, hnamed, hstored, Option.map_some, stoi_decimalInt]
  split <;> rfl

/-! ## `GET /test` -/

theorem TestListener.foldl_paramLine (ps : List (Bytes × Bytes)) (acc : Bytes) :
    ps.foldl (fun body p => body ++ paramLine p.1 p.2) acc =
      acc ++ ps.flatMap fun p => paramLine p.1 p.2 := by
  induction ps generalizing acc with
  | nil => exact (List.append_nil acc).symm
  | cons p ps ih => rw [List.foldl_cons, ih, List.flatMap_cons, List.append_assoc]

/-- The parameters that `GET /test` shows. -/
def Encoder.shown (E : Encoder) (ps : Pairs) : List (Bytes × Bytes) :=
  if isPctString isQueryChar (plainQuery ps) then
    (firsts (named ps)).map fun p => (E.encode p.1, E.encode (p.2.getD []))
  else []

/-- The answer has a line for each entry of what is stored. -/
theorem TestListener.body_test (po : ParamOrder) (h : E.Stored ps params) (req : Request)
    (res : Response) : ∃ entries : List (Bytes × Bytes), entries.Perm (E.shown ps) ∧
      ((test po).respond req params res).body = bytes "UwU Kawaiiiiiiii!\nParams: \x7b" ++
        entries.flatMap (fun p => paramLine p.1 p.2) ++ bytes "\n\x7d" := by
  have hhead : bytes "UwU Kawaiiiiiiii!\n" ++ bytes "Params: \x7b" =
      bytes "UwU Kawaiiiiiiii!\nParams: \x7b" := by decide
  cases params with
  | none =>
    refine ⟨[], ?_, ?_⟩
    · rw [Encoder.shown, if_neg (ne_true_of_eq_false h)]
    · rw [List.flatMap_nil, List.append_nil, ← hhead]
      rfl
  | some params =>
    refine ⟨po.order params, ?_, ?_⟩
    · rw [Encoder.shown, if_pos h.1]
      exact (po.perm params).trans h.perm
    · rw [← hhead, ← foldl_paramLine]
      rfl

namespace Server

variable {host : Host} {s t : Server} {es : List Event} {o os : List Output}
  {order : List (Bytes × Nat)} {i : Nat} {c : Client} {request : Request}

theorem getCallback_test {po : ParamOrder} : (App.simpleGame.routeManager po).getCallback .GET
    (bytes "/test") = some (TestListener.test po) := by
  rw [App.getCallback_simpleGame, if_pos ⟨rfl, rfl⟩]

/-- A `GET /test` that comes in on an IPv4 endpoint, and is no upgrade, is answered with the first
parameter of each key of its query that is not empty, in some order, as they are encoded; or with
none, if the decoded query is no query string. It does nothing else. -/
theorem test_shows (hB : host.url.Lawful L) (hrun : s.terminated = false)
    (hc : s.clients[i]? = some c) (hpos : 0 < c.connection.reads)
    (h4 : (host.localEndpoint c.socket).address.isV4 = true)
    (hm : request.method = .get) (hi : request.isUpgrade = false)
    (ht : IsTarget E ps (bytes "/test") request.target) (order : List (Bytes × Nat)) :
    ∃ (t : Server) (o : List Output) (message : Response) (entries : List (Bytes × Bytes)),
      step host .simpleGame s (.http i (.readDone .success request) order) = some (t, o) ∧
      t.world = s.world ∧ .http i (.write message) ∈ o ∧ message.result = 200 ∧
      entries.Perm (E.shown ps) ∧
      message.body = bytes "UwU Kawaiiiiiiii!\nParams: \x7b" ++
        entries.flatMap (fun p => TestListener.paramLine p.1 p.2) ++ bytes "\n\x7d" := by
  have hget : convertVerbBeast .get = .GET := by decide
  have hpath : pctDecode (bytes "/test") = bytes "/test" := by decide
  have hcb : (host.env .simpleGame c.socket).routeManager.getCallback .GET
      (pctDecode (bytes "/test")) = some (TestListener.test host.paramOrder).respond := by
    have h := RouteManagerBase.getCallback_responses (App.simpleGame.routeManager host.paramOrder)
      .GET (bytes "/test")
    rw [getCallback_test] at h
    exact hpath ▸ h
  obtain ⟨k, params, hstored, hk⟩ := Connection.step_toQuery ht hB h4 hpos hi (hm ▸ hget) hcb
  rw [hpath] at hk
  have heffect : effect host .simpleGame order (.invoke .GET (bytes "/test") request params) =
      none := by
    rw [effect, getCallback_test]
    rfl
  obtain ⟨entries, hperm, hbody⟩ := TestListener.body_test host.paramOrder hstored request
    (HttpSession.freshResponse request)
  have hw : (World.machine .simpleGame).logged.runFrom s.world
      (List.filterMap (effect host .simpleGame order)
        [.invoke .GET (bytes "/test") request params, .write
          ((TestListener.test host.paramOrder).respond request params
            (HttpSession.freshResponse request)).preparePayload]) = some (s.world, []) := by
    rw [List.filterMap_cons, heffect]
    rfl
  exact ⟨_, _, _, entries, step_http hrun hc hk hw, rfl,
    List.mem_append_left _ (List.mem_map_of_mem (List.mem_cons_of_mem _ List.mem_cons_self)), rfl,
    hperm, hbody⟩

/-- Of the two values of `x` the first one is shown, and the parameter without a key is not. -/
theorem test_shows_xy : ∃ s os t o message, ∃ entries : List (Bytes × Bytes),
    (machine .loopback .simpleGame).run [.runStart, .accepted .success 7] = some (s, os) ∧
    step .loopback .simpleGame s (.http 0 (.readDone .success
      (Connection.get (bytes "/test?x=1&=0&x=2&y") true)) []) = some (t, o) ∧
    .http 0 (.write message) ∈ o ∧
    entries.Perm [(bytes "x", bytes "1"), (bytes "y", [])] ∧
    message.body = bytes "UwU Kawaiiiiiiii!\nParams: \x7b" ++
      entries.flatMap (fun p => TestListener.paramLine p.1 p.2) ++ bytes "\n\x7d" := by
  obtain ⟨s, os, hr, hruns, hc⟩ := exists_run (M := machine .loopback .simpleGame)
    [.runStart, .accepted .success 7]
    (P := fun s _ => s.terminated = false ∧
      s.clients[0]? = some (newClient .loopback .simpleGame 7)) (by decide +kernel)
  have ht : IsTarget .unreserved [(bytes "x", some (bytes "1")), ([], some (bytes "0")),
      (bytes "x", some (bytes "2")), (bytes "y", none)] (bytes "/test")
      (bytes "/test?x=1&=0&x=2&y") :=
    ⟨by decide, rfl, by decide⟩
  have h4 : (Host.loopback.localEndpoint 7).address.isV4 = true := rfl
  have hget : (Connection.get (bytes "/test?x=1&=0&x=2&y") true).method = .get := rfl
  obtain ⟨t, o, message, entries, hs, -, hmem, -, hperm, hbody⟩ :=
    test_shows (BoostUrl.ofGrammar_lawful _) hruns hc Nat.one_pos h4 hget rfl ht []
  have hshown : Encoder.unreserved.shown [(bytes "x", some (bytes "1")), ([], some (bytes "0")),
      (bytes "x", some (bytes "2")), (bytes "y", none)] =
        [(bytes "x", bytes "1"), (bytes "y", [])] := by decide +kernel
  exact ⟨s, os, t, o, message, entries, hr, hs, hmem, hshown ▸ hperm, hbody⟩

/-! ## The delay of `POST /test/set_state` -/

/-- A `POST /test/set_state` with encoded parameters is read on an IPv4 endpoint. -/
theorem notifies_of_step (hB : host.url.Lawful L)
    (hr : (machine host .simpleGame).run es = some (s, os)) (hc : s.clients[i]? = some c)
    (h4 : (host.localEndpoint c.socket).address.isV4 = true) (hm : request.method = .post)
    (hi : request.isUpgrade = false)
    (ht : IsTarget E ps (bytes "/test/set_state") request.target)
    (hs : step host .simpleGame s (.http i (.readDone .success request) order) = some (t, o)) :
    t.world.state = request.body ∧ ∃ params, World.delaySecs params = E.delaySecs ps ∧
      World.Notifies request.body params order s.world t.world (worldOutputs o) := by
  have hpost : convertVerbBeast .post = .POST := by decide
  have hpath : pctDecode (bytes "/test/set_state") = bytes "/test/set_state" := by decide
  have hcb : (host.env .simpleGame c.socket).routeManager.getCallback .POST
      (pctDecode (bytes "/test/set_state")) = some TestListener.setState.respond := by
    have h := RouteManagerBase.getCallback_responses (App.simpleGame.routeManager host.paramOrder)
      .POST (bytes "/test/set_state")
    rw [getCallback_setState] at h
    exact hpath ▸ h
  obtain ⟨c', k', p, w, m, hc', hk', hw, rfl, rfl⟩ := httpStep_eq_some.mp (step_eq_some.mp hs).2
  rw [hc] at hc'
  cases hc'
  have hpos : 0 < c.connection.reads := by
    by_contra h
    simp [Connection.step, Nat.eq_zero_of_not_pos h] at hk'
  obtain ⟨k, params, hstored, hk⟩ := Connection.step_toQuery ht hB h4 hpos hi (hm ▸ hpost) hcb
  rw [hpath] at hk
  rw [hk] at hk'
  cases hk'
  have heffect : effect host .simpleGame order
      (.invoke .POST (bytes "/test/set_state") request params) =
        some (.setState request.body params order) :=
    effect_invoke.mpr ⟨_, getCallback_setState, rfl⟩
  rw [List.filterMap_cons, heffect] at hw
  obtain ⟨q, hstep, rfl⟩ := logged_step.mp (runFrom_singleton.symm.trans hw)
  have hworld := run_world hr
  refine ⟨World.state_of_setState hstep, params, hstored.delaySecs, ?_⟩
  rw [worldOutputs_append, worldOutputs_http, worldOutputs_log, List.nil_append,
    List.flatMap_singleton]
  exact World.notifies_setState (.of_run hworld) (.of_run hworld) (.of_run hworld) hstep

/-- A `POST /test/set_state` that is read on an IPv4 endpoint, and is no upgrade, sets the state. If
`ParseQuery` stores a delay, every registered session gets one timer with that delay and is sent
nothing yet; otherwise every registered session is sent the state, and there is no new timer. -/
theorem setState_notifies (hB : host.url.Lawful L)
    (hr : (machine host .simpleGame).run es = some (s, os)) (hc : s.clients[i]? = some c)
    (h4 : (host.localEndpoint c.socket).address.isV4 = true) (hm : request.method = .post)
    (hi : request.isUpgrade = false)
    (ht : IsTarget E ps (bytes "/test/set_state") request.target)
    (hs : step host .simpleGame s (.http i (.readDone .success request) order) = some (t, o)) :
    t.world.state = request.body ∧
      (∀ a, (order.map Prod.snd).count a = if World.Registered s.world a then 1 else 0) ∧
      (∀ d, E.delaySecs ps = some d →
        t.world.timers = s.world.timers ++ order.map (fun p => ⟨p.2, d⟩) ∧
        ∀ a, World.sentTo a (worldOutputs o) = []) ∧
      (E.delaySecs ps = none → t.world.timers = s.world.timers ∧
        ∀ a, World.sentTo a (worldOutputs o) =
          if World.Registered s.world a then [request.body] else []) := by
  obtain ⟨hstate, params, hd, H⟩ := notifies_of_step hB hr hc h4 hm hi ht hs
  rw [← hd]
  exact ⟨hstate, H.count, H.delayed, H.now⟩

/-- A client opens a WebSocket, another one asks for a delay in a query with other parameters. -/
theorem setState_notifies_one : ∃ s os t o, (machine .loopback .simpleGame).run
    [.runStart, .accepted .success 7, .accepted .success 9,
      .http 0 (.readDone .success { Connection.upgrade (bytes "/") with key := bytes "k" }) [],
      .stream 0 (.accepted .success)] = some (s, os) ∧
    step .loopback .simpleGame s (.http 1 (.readDone .success
      { post (bytes "on") with target := bytes "/test/set_state?x&delay=5s&delay=7" })
      [(bytes "k", 0)]) = some (t, o) ∧
    t.world.state = bytes "on" ∧ t.world.timers = s.world.timers ++ [⟨0, 5⟩] ∧
    ∀ a, World.sentTo a (worldOutputs o) = [] := by
  obtain ⟨s, os, hr, hc, h⟩ := exists_run (M := machine .loopback .simpleGame)
    [.runStart, .accepted .success 7, .accepted .success 9,
      .http 0 (.readDone .success { Connection.upgrade (bytes "/") with key := bytes "k" }) [],
      .stream 0 (.accepted .success)]
    (P := fun s _ => s.clients[1]? = some (newClient .loopback .simpleGame 9) ∧
      (step .loopback .simpleGame s (.http 1 (.readDone .success
        { post (bytes "on") with target := bytes "/test/set_state?x&delay=5s&delay=7" })
        [(bytes "k", 0)])).isSome) (by decide +kernel)
  obtain ⟨⟨t, o⟩, hs⟩ := Option.isSome_iff_exists.mp h
  have ht : IsTarget .unreserved [(bytes "x", none), (bytes "delay", some (bytes "5s")),
      (bytes "delay", some (bytes "7"))] (bytes "/test/set_state")
      (bytes "/test/set_state?x&delay=5s&delay=7") :=
    ⟨by decide, rfl, by decide⟩
  have h4 : (Host.loopback.localEndpoint 9).address.isV4 = true := rfl
  obtain ⟨hstate, -, hdelayed, -⟩ :=
    setState_notifies (BoostUrl.ofGrammar_lawful _) hr hc h4 rfl rfl ht hs
  obtain ⟨htimers, hsent⟩ := hdelayed 5 (by decide +kernel)
  exact ⟨s, os, t, o, hr, hs, hstate, htimers, hsent⟩

/-- `POST /test/set_state?delay=n` starts a timer of `n` seconds for every registered session and
sends nothing yet, for every `int` that is printed as the delay. Other numbers count as zero. -/
theorem setState_delays (hB : host.url.Lawful L)
    (hr : (machine host .simpleGame).run es = some (s, os)) (hc : s.clients[i]? = some c)
    (h4 : (host.localEndpoint c.socket).address.isV4 = true) (hm : request.method = .post)
    (hi : request.isUpgrade = false) {n : Int}
    (ht : request.target = bytes "/test/set_state?delay=" ++ decimalInt n)
    (hs : step host .simpleGame s (.http i (.readDone .success request) order) = some (t, o)) :
    t.world.timers = s.world.timers ++
        order.map (fun p => ⟨p.2, if -2147483648 ≤ n ∧ n ≤ 2147483647 then n else 0⟩) ∧
      (∀ a, (order.map Prod.snd).count a = if World.Registered s.world a then 1 else 0) ∧
      ∀ a, World.sentTo a (worldOutputs o) = [] := by
  have htarget : IsTarget .unreserved [(bytes "delay", some (decimalInt n))]
      (bytes "/test/set_state") request.target := by
    have hpath : bytes "/test/set_state?delay=" =
      bytes "/test/set_state" ++ 0x3F :: bytes "delay=" := by decide
    refine ⟨?_, rfl, by decide⟩
    rw [ht, Encoder.toQuery_delay, hpath, List.append_assoc]
    rfl
  obtain ⟨-, params, hd, H⟩ := notifies_of_step hB hr hc h4 hm hi htarget hs
  rw [Encoder.delaySecs_decimalInt] at hd
  obtain ⟨htimers, hsent⟩ := H.delayed _ hd
  exact ⟨htimers, H.count, hsent⟩

/-- The delay is negative. -/
theorem setState_delays_negative : ∃ s os t o, (machine .loopback .simpleGame).run
    [.runStart, .accepted .success 7, .accepted .success 9,
      .http 0 (.readDone .success { Connection.upgrade (bytes "/") with key := bytes "k" }) [],
      .stream 0 (.accepted .success)] = some (s, os) ∧
    step .loopback .simpleGame s (.http 1 (.readDone .success
      { post (bytes "on") with target := bytes "/test/set_state?delay=-12" })
      [(bytes "k", 0)]) = some (t, o) ∧
    t.world.timers = s.world.timers ++ [⟨0, -12⟩] ∧
    ∀ a, World.sentTo a (worldOutputs o) = [] := by
  obtain ⟨s, os, hr, hc, h⟩ := exists_run (M := machine .loopback .simpleGame)
    [.runStart, .accepted .success 7, .accepted .success 9,
      .http 0 (.readDone .success { Connection.upgrade (bytes "/") with key := bytes "k" }) [],
      .stream 0 (.accepted .success)]
    (P := fun s _ => s.clients[1]? = some (newClient .loopback .simpleGame 9) ∧
      (step .loopback .simpleGame s (.http 1 (.readDone .success
        { post (bytes "on") with target := bytes "/test/set_state?delay=-12" })
        [(bytes "k", 0)])).isSome) (by decide +kernel)
  obtain ⟨⟨t, o⟩, hs⟩ := Option.isSome_iff_exists.mp h
  have h4 : (Host.loopback.localEndpoint 9).address.isV4 = true := rfl
  have ht : bytes "/test/set_state?delay=-12" =
      bytes "/test/set_state?delay=" ++ decimalInt (-12) := by decide
  obtain ⟨htimers, -, hsent⟩ :=
    setState_delays (BoostUrl.ofGrammar_lawful _) hr hc h4 rfl rfl ht hs
  exact ⟨s, os, t, o, hr, hs, htimers, hsent⟩

end Server

end TheGame
