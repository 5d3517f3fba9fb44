import TheGame.Uri.Grammar

/-!
# A string behind an authority

When a string `t` is put behind the text of an authority, the part of `t` before its first slash,
question mark or number sign belongs to the authority of the whole. It may continue the port, or
contain an at sign, whereupon all that was there before is userinfo and `t` has the host
(`exists_authority_iff`). Path, query and fragment are those that `t` has by itself.
-/

namespace Rfc3986

/-- What stands before the first question mark or number sign. -/
def beforeQuery (t : List UInt8) : List UInt8 := (cut 0x3F (cut 0x23 t).1).1

/-- What stands before the first slash, question mark or number sign. -/
def beforePath (t : List UInt8) : List UInt8 := (cut 0x2F (beforeQuery t)).1

/-- What follows that, up to the query. -/
def pathPart (t : List UInt8) : List UInt8 := tail 0x2F (cut 0x2F (beforeQuery t)).2

def queryPart (t : List UInt8) : Option (List UInt8) := (cut 0x3F (cut 0x23 t).1).2

def fragmentPart (t : List UInt8) : Option (List UInt8) := (cut 0x23 t).2

/-- The components of the authority `a` with `t` behind it. -/
def extend (scheme : List UInt8) (a : Authority) (t : List UInt8) : Components where
  scheme
  authority := some a
  path := pathPart t
  query := queryPart t
  fragment := fragmentPart t

/-- The string continues an authority that ends in a port: by digits, or as an authority with
userinfo. -/
def Continues (L : IpLiteral) (s : List UInt8) : Prop :=
  s.all isDigit ∨ ∃ a : Authority, a.toBytes = s ∧ a.valid L ∧ a.userinfo.isSome

/-- Path, query and fragment have the characters they may have. -/
def WellFormed (t : List UInt8) : Prop :=
  isPctString isPathChar (pathPart t) ∧ (queryPart t).all (isPctString isQueryChar) ∧
    (fragmentPart t).all (isPctString isQueryChar)

section
variable {L : IpLiteral} {c : Components} {a : Authority} {scheme q t s l h p : List UInt8}
  {b : UInt8}

theorem cut_append_left (hb : b ∉ l) : cut b (l ++ s) = (l ++ (cut b s).1, (cut b s).2) := by
  rw [cut_eq_iff, List.append_assoc, cut_fst_append]
  refine ⟨rfl, fun hm => ?_⟩
  rcases List.mem_append.mp hm with hm | hm
  · exact hb hm
  · exact (cut_eq_iff.mp rfl).2 hm

theorem beforePath_append_pathPart : beforePath t ++ pathPart t = beforeQuery t :=
  cut_fst_append ..

/-- Of a target that begins with a slash nothing belongs to the authority. -/
theorem beforePath_eq_nil (ht : t.head? = some 0x2F) : beforePath t = [] := by
  cases t with
  | nil => cases ht
  | cons b t =>
    obtain rfl : b = 0x2F := Option.some.inj ht
    rfl

theorem pathPart_eq (ht : t.head? = some 0x2F) : pathPart t = beforeQuery t := by
  rw [← beforePath_append_pathPart, beforePath_eq_nil ht, List.nil_append]

/-- The parts of a string that is a path with a query. -/
theorem parts_append_tail {r : Option (List UInt8)} (hs : isPctString isPathChar s)
    (hr : r.all (isPctString isQueryChar)) :
    beforeQuery (s ++ tail 0x3F r) = s ∧ queryPart (s ++ tail 0x3F r) = r ∧
      fragmentPart (s ++ tail 0x3F r) = none := by
  have hquest : 0x3F ∉ s := notMem_of_isPctString hs rfl
  have hhash : 0x23 ∉ s ++ tail 0x3F r := by
    have hs' : 0x23 ∉ s := notMem_of_isPctString hs rfl
    cases r with
    | none => simpa [tail] using hs'
    | some r =>
      have hr' : 0x23 ∉ r := notMem_of_isPctString hr rfl
      simp [tail, hs', hr']
  have hcut := cut_append hhash none
  rw [tail, List.append_nil] at hcut
  simp only [beforeQuery, queryPart, fragmentPart, hcut, cut_append hquest, and_self]

/-! ## The delimiters -/

/-- The components of a string that begins with an authority and goes on with `t`. -/
theorem split_append (hs : isScheme scheme) (hquery : 0x3F ∉ q) (hfragment : 0x23 ∉ q)
    (hslash : 0x2F ∉ q) :
    split (scheme ++ 0x3A :: 0x2F :: 0x2F :: (q ++ t)) =
      (parseAuthority (q ++ beforePath t)).map (extend scheme · t) := by
  have hq (b : UInt8) (hn : isNameChar b = false) (hb : b ∉ q) (hc : b ≠ 0x3A) (hsl : b ≠ 0x2F)
      (r : List UInt8) : cut b (scheme ++ 0x3A :: 0x2F :: 0x2F :: (q ++ r)) =
        (scheme ++ 0x3A :: 0x2F :: 0x2F :: (q ++ (cut b r).1), (cut b r).2) := by
    have hpre : b ∉ scheme ++ 0x3A :: 0x2F :: 0x2F :: q := by
      simp [notMem_scheme hs hn, hb, hc, hsl]
    have h := cut_append_left (s := r) hpre
    simpa using h
  have hscheme : cut 0x3A (scheme ++ 0x3A :: 0x2F :: 0x2F :: (q ++ beforeQuery t)) =
      (scheme, some (0x2F :: 0x2F :: (q ++ beforeQuery t))) :=
    cut_append (notMem_scheme hs rfl) (some _)
  have hhier : parseHier (0x2F :: 0x2F :: (q ++ beforeQuery t)) =
      (parseAuthority (q ++ beforePath t)).map fun a => (some a, pathPart t) := by
    have hpre : [0x2F, 0x2F].isPrefixOf (0x2F :: 0x2F :: (q ++ beforeQuery t)) = true := rfl
    have hdrop : (0x2F :: 0x2F :: (q ++ beforeQuery t)).drop 2 = q ++ beforeQuery t := rfl
    rw [parseHier, if_pos hpre, hdrop, cut_append_left hslash]
    rfl
  simp only [split]
  rw [hq 0x23 rfl hfragment (by decide) (by decide)]
  dsimp only
  rw [hq 0x3F rfl hquery (by decide) (by decide)]
  dsimp only
  rw [← beforeQuery, hscheme]
  dsimp only
  rw [hhier, Option.map_map]
  rfl

/-- The whole is a URI if the first part of `t` completes the authority and the rest of `t` is well
formed. -/
theorem exists_isUri_append_iff (hs : isScheme scheme) (hquery : 0x3F ∉ q) (hfragment : 0x23 ∉ q)
    (hslash : 0x2F ∉ q) :
    (∃ c, IsUri L (scheme ++ 0x3A :: 0x2F :: 0x2F :: (q ++ t)) c) ↔
      (∃ a : Authority, a.toBytes = q ++ beforePath t ∧ a.valid L) ∧ WellFormed t := by
  have hfits (a : Authority) : (extend scheme a t).pathFits := by
    rw [Components.pathFits, extend, pathPart]
    cases (cut 0x2F (beforeQuery t)).2 <;> rfl
  constructor
  · rintro ⟨c, hc⟩
    obtain ⟨hsplit, hv⟩ := Option.filter_eq_some_iff.mp (parse_eq_some_iff.mpr hc)
    rw [split_append hs hquery hfragment hslash] at hsplit
    obtain ⟨a, ha, rfl⟩ := Option.map_eq_some_iff.mp hsplit
    simp only [Components.valid, Bool.and_eq_true] at hv
    obtain ⟨⟨⟨⟨⟨-, ha'⟩, hp⟩, -⟩, hq⟩, hf⟩ := hv
    exact ⟨⟨a, toBytes_of_parseAuthority ha, ha'⟩, hp, hq, hf⟩
  · rintro ⟨⟨a, ha, hv⟩, hp, hq, hf⟩
    refine ⟨extend scheme a t, parse_eq_some_iff.mp (Option.filter_eq_some_iff.mpr ⟨?_, ?_⟩)⟩
    · rw [split_append hs hquery hfragment hslash, ← ha, parseAuthority_toBytes hv]
      rfl
    · have ha' : (some a).all (·.valid L) = true := hv
      simp only [Components.valid, Bool.and_eq_true]
      exact ⟨⟨⟨⟨⟨hs, ha'⟩, hp⟩, hfits a⟩, hq⟩, hf⟩

theorem IsUri.eq_extend (hc : IsUri L (scheme ++ 0x3A :: 0x2F :: 0x2F :: (q ++ t)) c)
    (hs : isScheme scheme) (hquery : 0x3F ∉ q) (hfragment : 0x23 ∉ q) (hslash : 0x2F ∉ q) :
    ∃ a, c = extend scheme a t := by
  have hsplit := (Option.filter_eq_some_iff.mp (parse_eq_some_iff.mpr hc)).1
  rw [split_append hs hquery hfragment hslash] at hsplit
  obtain ⟨a, -, rfl⟩ := Option.map_eq_some_iff.mp hsplit
  exact ⟨a, rfl⟩

theorem IsUri.path_append (hc : IsUri L (scheme ++ 0x3A :: 0x2F :: 0x2F :: (q ++ t)) c)
    (hs : isScheme scheme) (hquery : 0x3F ∉ q) (hfragment : 0x23 ∉ q) (hslash : 0x2F ∉ q) :
    c.path = pathPart t := by
  obtain ⟨a, rfl⟩ := hc.eq_extend hs hquery hfragment hslash
  rfl

theorem IsUri.query_append (hc : IsUri L (scheme ++ 0x3A :: 0x2F :: 0x2F :: (q ++ t)) c)
    (hs : isScheme scheme) (hquery : 0x3F ∉ q) (hfragment : 0x23 ∉ q) (hslash : 0x2F ∉ q) :
    c.query = queryPart t := by
  obtain ⟨a, rfl⟩ := hc.eq_extend hs hquery hfragment hslash
  rfl

/-! ## The authority -/

/-- An authority has a colon in front of its port, in its userinfo and in an IP literal. -/
theorem Authority.count_colon_le (hv : a.valid L) (hat : 0x40 ∉ a.toBytes)
    (hopen : 0x5B ∉ a.toBytes) : a.toBytes.count 0x3A ≤ 1 := by
  obtain ⟨userinfo, host, port⟩ := a
  cases userinfo with
  | some u => exact absurd (by simp [toBytes]) hat
  | none =>
  cases host with
  | ipLiteral s => exact absurd (by simp [toBytes, Host.toBytes]) hopen
  | name s =>
    simp only [valid, Option.all_none, Bool.true_and, Bool.and_eq_true] at hv
    have hname : s.count 0x3A = 0 := List.count_eq_zero.mpr (notMem_of_isPctString hv.1 rfl)
    cases port with
    | none => simp [toBytes, Host.toBytes, tail, hname]
    | some p =>
      have hport : p.count 0x3A = 0 := by
        refine List.count_eq_zero.mpr fun hm => ?_
        have hdigit := List.all_eq_true.mp hv.2 _ hm
        cases hdigit
      simp [toBytes, Host.toBytes, tail, hname, hport]

/-- Literal characters may be put before a string with escapes. -/
theorem isPctString_append_of_forall {lit : UInt8 → Bool} (hl : ∀ b ∈ l, lit b ∧ b ≠ 0x25) :
    isPctString lit (l ++ s) = isPctString lit s := by
  induction l with
  | nil => rfl
  | cons b l ih =>
    obtain ⟨hb, hne⟩ := hl b List.mem_cons_self
    have ih := ih fun c hc => hl c (List.mem_cons_of_mem _ hc)
    rw [isPctString] at ih ⊢
    rw [List.cons_append, isPctRest, if_neg hne, hb, Bool.true_and, ih, isPctString]

theorem ne_percent_of_isNameChar (hb : isNameChar b) : b ≠ 0x25 := by
  rintro rfl
  cases hb

theorem isNameChar_of_isDigit (hb : isDigit b) : isNameChar b := by
  simp [isNameChar, isUnreserved, hb]

/-- Text of an authority without userinfo that goes on with an authority with userinfo. -/
theorem exists_userinfo_iff (hq : ∀ b ∈ q, isUserinfoChar b ∧ b ≠ 0x25) :
    (∃ a : Authority, a.toBytes = q ++ s ∧ a.valid L ∧ a.userinfo.isSome) ↔
      ∃ a : Authority, a.toBytes = s ∧ a.valid L ∧ a.userinfo.isSome := by
  have hat : 0x40 ∉ q := fun hm => absurd (hq _ hm).1 (by decide)
  constructor
  · rintro ⟨⟨_ | u, host, port⟩, ha, hv, hsome⟩
    · cases hsome
    simp only [Authority.valid, Option.all_some, Bool.and_eq_true] at hv
    obtain ⟨⟨hu, hhost⟩, hport⟩ := hv
    -- the userinfo ends at the first at sign, which is one of `s`
    have hcut : cut 0x40 (q ++ s) = (u, some (host.toBytes ++ tail 0x3A port)) := by
      refine cut_eq_iff.mpr ⟨?_, notMem_of_isPctString hu rfl⟩
      rw [← ha]
      simp [Authority.toBytes, tail]
    rw [cut_append_left hat] at hcut
    obtain ⟨rfl, hr⟩ := Prod.mk.inj hcut
    refine ⟨⟨some (cut 0x40 s).1, host, port⟩, ?_, ?_, rfl⟩
    · refine Eq.trans ?_ (cut_fst_append 0x40 s)
      rw [hr]
      simp [Authority.toBytes, tail]
    · rw [isPctString_append_of_forall hq] at hu
      simp [Authority.valid, hu, hhost, hport]
  · rintro ⟨⟨_ | u, host, port⟩, rfl, hv, hsome⟩
    · cases hsome
    simp only [Authority.valid, Option.all_some, Bool.and_eq_true] at hv
    obtain ⟨⟨hu, hhost⟩, hport⟩ := hv
    refine ⟨⟨some (q ++ u), host, port⟩, by simp [Authority.toBytes], ?_, rfl⟩
    simp [Authority.valid, isPctString_append_of_forall hq, hu, hhost, hport]

/-- Text of an authority without userinfo that goes on with characters of the port. -/
theorem exists_port_iff (hh : ∀ b ∈ h, isNameChar b) (hp : p.all isDigit) :
    (∃ a : Authority, a.toBytes = h ++ 0x3A :: p ++ s ∧ a.valid L ∧ a.userinfo = none) ↔
      s.all isDigit := by
  have hname : (Host.name h).valid L :=
    isPctString_of_forall fun b hb => ⟨hh b hb, ne_percent_of_isNameChar (hh b hb)⟩
  have hparse : parseHostPort (h ++ 0x3A :: p ++ s) = some (.name h, some (p ++ s)) := by
    have := parseHostPort_toBytes (p := some (p ++ s)) hname
    simpa [Host.toBytes, tail] using this
  constructor
  · rintro ⟨⟨_, host, port⟩, ha, hv, rfl⟩
    simp only [Authority.valid, Option.all_none, Bool.true_and, Bool.and_eq_true] at hv
    obtain ⟨hhost, hport⟩ := hv
    rw [← ha] at hparse
    simp only [Authority.toBytes, List.nil_append] at hparse
    rw [parseHostPort_toBytes hhost] at hparse
    obtain ⟨rfl, rfl⟩ := Prod.ext_iff.mp (Option.some.inj hparse)
    rw [Option.all_some, List.all_append, Bool.and_eq_true] at hport
    exact hport.2
  · intro hs
    refine ⟨⟨none, .name h, some (p ++ s)⟩, ?_, ?_, rfl⟩
    · simp [Authority.toBytes, Host.toBytes, tail]
    · simp [Authority.valid, hname, hp, hs]

/-- The strings that complete `host:port` to an authority. -/
theorem exists_authority_iff (hh : ∀ b ∈ h, isNameChar b) (hp : p.all isDigit) :
    (∃ a : Authority, a.toBytes = h ++ 0x3A :: p ++ s ∧ a.valid L) ↔ Continues L s := by
  have hq : ∀ b ∈ h ++ 0x3A :: p, isUserinfoChar b ∧ b ≠ 0x25 := by
    intro b hb
    rcases List.mem_append.mp hb with hb | hb
    · exact ⟨by simp [isUserinfoChar, hh b hb], ne_percent_of_isNameChar (hh b hb)⟩
    rcases List.mem_cons.mp hb with rfl | hb
    · decide
    · have hn := isNameChar_of_isDigit (List.all_eq_true.mp hp b hb)
      exact ⟨by simp [isUserinfoChar, hn], ne_percent_of_isNameChar hn⟩
  rw [Continues, ← exists_port_iff hh hp, ← exists_userinfo_iff hq]
  constructor
  · rintro ⟨a, ha, hv⟩
    cases hu : a.userinfo with
    | none => exact .inl ⟨a, ha, hv, hu⟩
    | some u => exact .inr ⟨a, ha, hv, by rw [hu]; rfl⟩
  · rintro (⟨a, ha, hv, -⟩ | ⟨a, ha, hv, -⟩)
    · exact ⟨a, ha, hv⟩
    · exact ⟨a, ha, hv⟩

end

end Rfc3986
