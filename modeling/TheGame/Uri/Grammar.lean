import TheGame.Uri.Percent

/-!
# The grammar of URIs (RFC 3986, section 3)

`IsUri L s c` says that the string `s` is a URI with the components `c`. The grammar is
unambiguous: no component contains the delimiter that ends it, so cutting a string at the first
occurrence of each delimiter finds the components (`parse_eq_some_iff`). The syntax of IP
literals between square brackets is a parameter.
-/

namespace Rfc3986

/-! ## Cutting at a delimiter -/

/-- A delimiter and what it introduces, if it is there. -/
def tail (c : UInt8) : Option (List UInt8) → List UInt8
  | none => []
  | some s => c :: s

/-- The string before the first `c`, and what follows this `c`. -/
def cut (c : UInt8) : List UInt8 → List UInt8 × Option (List UInt8)
  | [] => ([], none)
  | b :: s => if b = c then ([], some s) else (b :: (cut c s).1, (cut c s).2)

theorem cut_eq_iff {c : UInt8} {s l : List UInt8} {r : Option (List UInt8)} :
    cut c s = (l, r) ↔ l ++ tail c r = s ∧ c ∉ l := by
  induction s generalizing l with
  | nil =>
    cases r <;> simp [cut, tail, eq_comm]
    intro h
    simp [h]
  | cons b s ih =>
    rw [cut]
    split <;> rename_i hb
    · subst b
      cases l with
      | nil => cases r <;> simp [tail, eq_comm]
      | cons a l =>
        simp only [Prod.mk.injEq, reduceCtorEq, false_and, List.cons_append, List.cons.injEq,
          List.mem_cons, not_or, false_iff, not_and, not_not]
        rintro ⟨rfl, -⟩ h
        exact absurd rfl h
    · cases l with
      | nil =>
        cases r with
        | none => simp [tail]
        | some r => simp [tail, Ne.symm hb]
      | cons a l =>
        have ih := ih (l := l)
        rw [Prod.ext_iff] at ih
        simp only [Prod.mk.injEq, List.cons.injEq, List.cons_append, List.mem_cons, not_or]
        rw [and_assoc, ih]
        constructor
        · rintro ⟨rfl, h, hc⟩
          exact ⟨⟨rfl, h⟩, Ne.symm hb, hc⟩
        · rintro ⟨⟨rfl, h⟩, -, hc⟩
          exact ⟨rfl, h, hc⟩

theorem cut_append {c : UInt8} {l : List UInt8} (h : c ∉ l) (r : Option (List UInt8)) :
    cut c (l ++ tail c r) = (l, r) := cut_eq_iff.mpr ⟨rfl, h⟩

theorem cut_fst_append (c : UInt8) (s : List UInt8) : (cut c s).1 ++ tail c (cut c s).2 = s :=
  (cut_eq_iff.mp rfl).1

/-! ## The components of a URI -/

inductive Host
  | name (s : List UInt8)
  | ipLiteral (s : List UInt8)
deriving DecidableEq

structure Authority where
  userinfo : Option (List UInt8)
  host : Host
  port : Option (List UInt8)
deriving DecidableEq

structure Components where
  scheme : List UInt8
  authority : Option Authority
  path : List UInt8
  query : Option (List UInt8)
  fragment : Option (List UInt8)
deriving DecidableEq

/-- A syntax of IP literals; its characters are those of `userinfo`. -/
structure IpLiteral where
  accepts : List UInt8 → Bool
  chars : ∀ s, accepts s → isPctString isUserinfoChar s

def isScheme : List UInt8 → Bool
  | [] => false
  | c :: s => isAlpha c && s.all fun b => isAlpha b || isDigit b || [0x2B, 0x2D, 0x2E].contains b

variable (L : IpLiteral)

def Host.toBytes : Host → List UInt8
  | .name s => s
  | .ipLiteral s => 0x5B :: (s ++ [0x5D])

def Host.valid : Host → Bool
  | .name s => isPctString isNameChar s
  | .ipLiteral s => L.accepts s

def Authority.toBytes (a : Authority) : List UInt8 :=
  (match a.userinfo with
    | none => []
    | some s => s ++ [0x40]) ++ a.host.toBytes ++ tail 0x3A a.port

def Authority.valid (a : Authority) : Bool :=
  a.userinfo.all (isPctString isUserinfoChar) && a.host.valid L && a.port.all (·.all isDigit)

/-- What follows the scheme, before the query. -/
def hierBytes (authority : Option Authority) (path : List UInt8) : List UInt8 :=
  match authority with
  | none => path
  | some a => 0x2F :: 0x2F :: (a.toBytes ++ path)

def Components.toBytes (c : Components) : List UInt8 :=
  c.scheme ++ 0x3A :: hierBytes c.authority c.path ++ tail 0x3F c.query ++ tail 0x23 c.fragment

/-- After an authority the path is empty or begins with a slash, and without one it does not
begin with two. -/
def Components.pathFits (c : Components) : Bool :=
  match c.authority with
  | none => !([0x2F, 0x2F].isPrefixOf c.path)
  | some _ => c.path.isEmpty || [0x2F].isPrefixOf c.path

def Components.valid (c : Components) : Bool :=
  isScheme c.scheme && c.authority.all (·.valid L) && isPctString isPathChar c.path &&
    c.pathFits && c.query.all (isPctString isQueryChar) && c.fragment.all (isPctString isQueryChar)

/-- The string `s` is a URI with the components `c`. -/
def IsUri (s : List UInt8) (c : Components) : Prop := c.toBytes = s ∧ c.valid L

/-! ## Parsing -/

def parseHostPort (s : List UInt8) : Option (Host × Option (List UInt8)) :=
  if s.head? = some 0x5B then
    match cut 0x5D s.tail with
    | (_, none) => none
    | (body, some r) =>
      match cut 0x3A r with
      | ([], port) => some (.ipLiteral body, port)
      | _ => none
  else some (.name (cut 0x3A s).1, (cut 0x3A s).2)

def parseAuthority (s : List UInt8) : Option Authority :=
  match cut 0x40 s with
  | (l, some r) =>
    (parseHostPort r).map fun hp => { userinfo := some l, host := hp.1, port := hp.2 }
  | (l, none) => (parseHostPort l).map fun hp => { userinfo := none, host := hp.1, port := hp.2 }

/-- The authority and the path of what follows the scheme. -/
def parseHier (s : List UInt8) : Option (Option Authority × List UInt8) :=
  if [0x2F, 0x2F].isPrefixOf s then
    (parseAuthority (cut 0x2F (s.drop 2)).1).map fun a =>
      (some a, tail 0x2F (cut 0x2F (s.drop 2)).2)
  else some (none, s)

/-- The components of a string, if it has the delimiters of a URI. -/
def split (s : List UInt8) : Option Components :=
  let (s, fragment) := cut 0x23 s
  let (s, query) := cut 0x3F s
  match cut 0x3A s with
  | (_, none) => none
  | (scheme, some r) =>
    (parseHier r).map fun h => { scheme, authority := h.1, path := h.2, query, fragment }

/-- The components of a URI. -/
def parse (s : List UInt8) : Option Components := (split s).filter (·.valid L)

section
variable {L : IpLiteral} {s : List UInt8} {c : Components} {a : Authority} {h : Host}
  {p : Option (List UInt8)}

theorem cut_tail (c : UInt8) (r : Option (List UInt8)) : cut c (tail c r) = ([], r) :=
  cut_append (l := []) (by simp) r

theorem toBytes_of_parseHostPort (hs : parseHostPort s = some (h, p)) :
    h.toBytes ++ tail 0x3A p = s := by
  unfold parseHostPort at hs
  split at hs <;> rename_i hh
  · split at hs
    · cases hs
    rename_i body r hcut
    split at hs
    · rename_i port hcut'
      cases hs
      obtain ⟨h1, -⟩ := cut_eq_iff.mp hcut
      obtain ⟨rfl, -⟩ := cut_eq_iff.mp hcut'
      rw [← List.cons_head?_tail hh, ← h1]
      simp [Host.toBytes, tail]
    · cases hs
  · cases hs
    exact (cut_eq_iff.mp rfl).1

theorem parseHostPort_toBytes (hv : h.valid L) :
    parseHostPort (h.toBytes ++ tail 0x3A p) = some (h, p) := by
  cases h with
  | name s =>
    have hcolon : 0x3A ∉ s := notMem_of_isPctString hv rfl
    have hopen : 0x5B ∉ s := notMem_of_isPctString hv rfl
    have hne : ¬(s ++ tail 0x3A p).head? = some 0x5B := by
      intro h
      cases s with
      | nil => cases p <;> simp [tail] at h
      | cons b s => simp_all
    rw [parseHostPort, Host.toBytes, if_neg hne, cut_append hcolon]
  | ipLiteral s =>
    have hclose : 0x5D ∉ s := notMem_of_isPctString (L.chars s hv) rfl
    have hcut : cut 0x5D (s ++ 0x5D :: tail 0x3A p) = (s, some (tail 0x3A p)) :=
      cut_append hclose (some _)
    simp [parseHostPort, Host.toBytes, hcut, cut_tail]

theorem toBytes_of_parseAuthority (hs : parseAuthority s = some a) : a.toBytes = s := by
  unfold parseAuthority at hs
  split at hs <;> rename_i l r hcut <;> obtain ⟨rfl, -⟩ := cut_eq_iff.mp hcut <;>
    obtain ⟨hp, h, rfl⟩ := Option.map_eq_some_iff.mp hs <;>
    rw [Authority.toBytes, List.append_assoc, toBytes_of_parseHostPort h] <;> simp [tail]

/-- The characters of host and port. -/
def isHostChar (b : UInt8) : Bool :=
  isEscapeChar b || isUserinfoChar b || b == 0x5B || b == 0x5D

theorem notMem_hostPort {b : UInt8} (hv : h.valid L) (hp : p.all (·.all isDigit))
    (hb : isHostChar b = false) : b ∉ h.toBytes ++ tail 0x3A p := by
  simp only [isHostChar, isUserinfoChar, Bool.or_eq_false_iff, beq_eq_false_iff_ne] at hb
  obtain ⟨⟨⟨hesc, hname, hcolon⟩, hopen⟩, hclose⟩ := hb
  intro hm
  rcases List.mem_append.mp hm with hm | hm
  · cases h with
    | name s => exact notMem_of_isPctString hv (by simp [hesc, hname]) hm
    | ipLiteral s =>
      have := notMem_of_isPctString (b := b) (L.chars s hv) (by simp [isUserinfoChar, *])
      simp_all [Host.toBytes]
  · cases p with
    | none => cases hm
    | some s =>
      rcases List.mem_cons.mp hm with rfl | hm
      · exact hcolon rfl
      · have hd : isDigit b := List.all_eq_true.mp hp b hm
        simp [isEscapeChar, isHexDigit, hd] at hesc

theorem notMem_authority {b : UInt8} (hv : a.valid L) (hb : (isHostChar b || b == 0x40) = false) :
    b ∉ a.toBytes := by
  obtain ⟨userinfo, host, port⟩ := a
  simp only [Authority.valid, Bool.and_eq_true] at hv
  obtain ⟨⟨hu, hh⟩, hp⟩ := hv
  obtain ⟨hhost, hat⟩ := Bool.or_eq_false_iff.mp hb
  have hrest := notMem_hostPort hh hp hhost
  cases userinfo with
  | none => simpa [Authority.toBytes] using hrest
  | some u =>
    simp only [isHostChar, Bool.or_eq_false_iff] at hhost
    have hu : b ∉ u := notMem_of_isPctString hu (Bool.or_eq_false_iff.mpr hhost.1.1)
    simp_all [Authority.toBytes]

theorem parseAuthority_toBytes (hv : a.valid L) : parseAuthority a.toBytes = some a := by
  obtain ⟨userinfo, host, port⟩ := a
  simp only [Authority.valid, Bool.and_eq_true] at hv
  obtain ⟨⟨hu, hh⟩, hp⟩ := hv
  have hparse := parseHostPort_toBytes (p := port) hh
  cases userinfo with
  | none =>
    have hat : 0x40 ∉ host.toBytes ++ tail 0x3A port := notMem_hostPort hh hp rfl
    have hcut := cut_append hat none
    rw [tail, List.append_nil] at hcut
    rw [parseAuthority, Authority.toBytes, List.nil_append, hcut]
    simp [hparse]
  | some u =>
    have hat : 0x40 ∉ u := notMem_of_isPctString hu rfl
    have hcut := cut_append hat (some (host.toBytes ++ tail 0x3A port))
    have hbytes : Authority.toBytes { userinfo := some u, host, port } =
        u ++ tail 0x40 (some (host.toBytes ++ tail 0x3A port)) := by
      simp [Authority.toBytes, tail]
    rw [parseAuthority, hbytes, hcut]
    simp [hparse]

theorem hierBytes_of_parseHier {q : Option Authority × List UInt8} (hs : parseHier s = some q) :
    hierBytes q.1 q.2 = s := by
  unfold parseHier at hs
  split at hs <;> rename_i hpre
  · obtain ⟨a, ha, rfl⟩ := Option.map_eq_some_iff.mp hs
    obtain ⟨r, rfl⟩ := List.isPrefixOf_iff_prefix.mp hpre
    simp only [hierBytes, toBytes_of_parseAuthority ha, cut_fst_append]
    rfl
  · cases hs
    rfl

theorem parseHier_hierBytes {c : Components} (hv : c.authority.all (·.valid L)) (hp : c.pathFits) :
    parseHier (hierBytes c.authority c.path) = some (c.authority, c.path) := by
  obtain ⟨scheme, authority, path, query, fragment⟩ := c
  cases authority with
  | none =>
    have hpre : [0x2F, 0x2F].isPrefixOf path = false := by simpa [Components.pathFits] using hp
    simp only [parseHier, hierBytes, hpre]
    rfl
  | some a =>
    obtain ⟨r, rfl⟩ : ∃ r, path = tail 0x2F r := by
      simp only [Components.pathFits, Bool.or_eq_true, List.isEmpty_iff] at hp
      rcases hp with rfl | hp
      · exact ⟨none, rfl⟩
      · obtain ⟨r, rfl⟩ := List.isPrefixOf_iff_prefix.mp hp
        exact ⟨some r, rfl⟩
    have ha : a.valid L := hv
    have hslash : 0x2F ∉ a.toBytes := notMem_authority ha rfl
    simp [parseHier, hierBytes, cut_append hslash, parseAuthority_toBytes ha]

theorem toBytes_of_split (hs : split s = some c) : c.toBytes = s := by
  unfold split at hs
  dsimp only at hs
  split at hs
  · cases hs
  rename_i scheme r hcut
  obtain ⟨h, hh, rfl⟩ := Option.map_eq_some_iff.mp hs
  have hscheme : scheme ++ tail 0x3A (some r) = (cut 0x3F (cut 0x23 s).1).1 :=
    (cut_eq_iff.mp hcut).1
  rw [Components.toBytes, hierBytes_of_parseHier hh, ← tail.eq_2, hscheme, cut_fst_append,
    cut_fst_append]

theorem notMem_scheme {b : UInt8} (hs : isScheme s) (hlit : isNameChar b = false) : b ∉ s := by
  have hb : (isAlpha b || isDigit b || [0x2B, 0x2D, 0x2E].contains b) = false := by
    simp [isNameChar, isUnreserved, isSubDelim] at hlit
    simp [hlit]
  cases s with
  | nil => simp
  | cons c s =>
    simp only [isScheme, Bool.and_eq_true, List.all_eq_true] at hs
    intro hm
    rcases List.mem_cons.mp hm with rfl | hm
    · simp [hs.1] at hb
    · exact absurd (hs.2 b hm) (by rw [hb]; decide)

/-- A delimiter of query or fragment is none of the characters before them. -/
theorem notMem_scheme_hier {b : UInt8} (hv : c.valid L)
    (hb : (isHostChar b || isPathChar b) = false) :
    b ∉ c.scheme ++ 0x3A :: hierBytes c.authority c.path := by
  obtain ⟨scheme, authority, path, query, fragment⟩ := c
  simp only [Components.valid, Bool.and_eq_true] at hv
  obtain ⟨⟨⟨⟨⟨hs, ha⟩, hp⟩, -⟩, -⟩, -⟩ := hv
  obtain ⟨hhost, hpath⟩ := Bool.or_eq_false_iff.mp hb
  have hesc : isEscapeChar b = false := by
    simp only [isHostChar, Bool.or_eq_false_iff] at hhost
    exact hhost.1.1.1
  have hp : b ∉ path := notMem_of_isPctString hp (Bool.or_eq_false_iff.mpr ⟨hesc, hpath⟩)
  simp only [isPathChar, isPchar, isUserinfoChar, Bool.or_eq_false_iff,
    beq_eq_false_iff_ne] at hpath
  obtain ⟨⟨⟨hname, hcolon⟩, hat⟩, hslash⟩ := hpath
  have hscheme := notMem_scheme hs hname
  cases authority with
  | none => simp [hierBytes, hscheme, hcolon, hp]
  | some a =>
    have hauth : b ∉ a.toBytes := notMem_authority (L := L) ha (by simp [hhost, hat])
    simp [hierBytes, hscheme, hcolon, hp, hslash, hauth]

theorem split_toBytes (hv : c.valid L) : split c.toBytes = some c := by
  have hquest : 0x3F ∉ c.scheme ++ 0x3A :: hierBytes c.authority c.path :=
    notMem_scheme_hier hv rfl
  have hhash : 0x23 ∉ c.scheme ++ 0x3A :: hierBytes c.authority c.path :=
    notMem_scheme_hier hv rfl
  obtain ⟨scheme, authority, path, query, fragment⟩ := c
  simp only [Components.valid, Bool.and_eq_true] at hv
  obtain ⟨⟨⟨⟨⟨hs, ha⟩, -⟩, hp⟩, hq⟩, -⟩ := hv
  have hhash : 0x23 ∉ scheme ++ 0x3A :: hierBytes authority path ++ tail 0x3F query := by
    cases query with
    | none => simpa [tail] using hhash
    | some q =>
      have hq : 0x23 ∉ q := notMem_of_isPctString hq rfl
      intro hm
      rcases List.mem_append.mp hm with hm | hm
      · exact hhash hm
      · rcases List.mem_cons.mp hm with hm | hm
        · cases hm
        · exact hq hm
  have hcolon : 0x3A ∉ scheme := notMem_scheme hs rfl
  have hcut := cut_append hcolon (some (hierBytes authority path))
  rw [tail] at hcut
  simp only [split, Components.toBytes, cut_append hhash, cut_append hquest, hcut,
    parseHier_hierBytes ha hp, Option.map_some]

/-- The grammar of URIs is unambiguous, and `parse` decides it. -/
theorem parse_eq_some_iff : parse L s = some c ↔ IsUri L s c := by
  rw [parse, Option.filter_eq_some_iff]
  constructor
  · rintro ⟨hs, hv⟩
    exact ⟨toBytes_of_split hs, hv⟩
  · rintro ⟨rfl, hv⟩
    exact ⟨split_toBytes hv, hv⟩

theorem IsUri.unique {c' : Components} (h : IsUri L s c) (h' : IsUri L s c') : c = c' := by
  have hp := parse_eq_some_iff.mpr h
  rw [parse_eq_some_iff.mpr h'] at hp
  exact (Option.some.inj hp).symm

/-- The query is what stands between the first question mark before a number sign, and that. -/
theorem IsUri.query_eq (h : IsUri L s c) : c.query = (cut 0x3F (cut 0x23 s).1).2 := by
  have hs := (Option.filter_eq_some_iff.mp (parse_eq_some_iff.mpr h)).1
  unfold split at hs
  dsimp only at hs
  split at hs
  · cases hs
  · obtain ⟨_, -, rfl⟩ := Option.map_eq_some_iff.mp hs
    rfl

end

end Rfc3986
