import Mathlib.Data.List.Basic

/-!
# Characters and percent-encoding (RFC 3986, section 2)

The character classes of the URI grammar as predicates on bytes, the strings made of literal
characters of a class and of escapes (`isPctString`), and percent-encoding and -decoding. An
encoder is given by the characters it keeps; it must not keep the percent sign.
-/

namespace Rfc3986

def isAlpha (b : UInt8) : Bool := (0x41 ≤ b && b ≤ 0x5A) || (0x61 ≤ b && b ≤ 0x7A)

def isDigit (b : UInt8) : Bool := 0x30 ≤ b && b ≤ 0x39

def isHexDigit (b : UInt8) : Bool :=
  isDigit b || (0x41 ≤ b && b ≤ 0x46) || (0x61 ≤ b && b ≤ 0x66)

/-- Letters, digits and `-._~`. -/
def isUnreserved (b : UInt8) : Bool :=
  isAlpha b || isDigit b || [0x2D, 0x2E, 0x5F, 0x7E].contains b

/-- The characters of `!$&'()*+,;=`. -/
def isSubDelim (b : UInt8) : Bool :=
  [0x21, 0x24, 0x26, 0x27, 0x28, 0x29, 0x2A, 0x2B, 0x2C, 0x3B, 0x3D].contains b

/-- The literal characters of `reg-name`. -/
def isNameChar (b : UInt8) : Bool := isUnreserved b || isSubDelim b

/-- The literal characters of `userinfo`, with the colon. -/
def isUserinfoChar (b : UInt8) : Bool := isNameChar b || b == 0x3A

/-- The literal characters of a path segment, with colon and at sign. -/
def isPchar (b : UInt8) : Bool := isUserinfoChar b || b == 0x40

/-- The literal characters of a path, with the slash. -/
def isPathChar (b : UInt8) : Bool := isPchar b || b == 0x2F

/-- The literal characters of a query and of a fragment, with slash and question mark. -/
def isQueryChar (b : UInt8) : Bool := isPathChar b || b == 0x3F

/-- The characters of an escape: the percent sign and the hexadecimal digits. -/
def isEscapeChar (b : UInt8) : Bool := b == 0x25 || isHexDigit b

/-! ## Strings with escapes -/

section
variable {lit : UInt8 → Bool}

/-- `n` hexadecimal digits, then literal characters, and percent signs each followed by two
hexadecimal digits. -/
def isPctRest (lit : UInt8 → Bool) : Nat → List UInt8 → Bool
  | 0, [] => true
  | _ + 1, [] => false
  | 0, c :: s => if c = 0x25 then isPctRest lit 2 s else lit c && isPctRest lit 0 s
  | n + 1, c :: s => isHexDigit c && isPctRest lit n s

/-- The string is made of literal characters and of escapes. -/
def isPctString (lit : UInt8 → Bool) (s : List UInt8) : Bool := isPctRest lit 0 s

/-- A separator, being no hexadecimal digit, does not end an escape. -/
theorem isPctRest_append_cons {n : Nat} {l r : List UInt8} {c : UInt8} (hlit : lit c)
    (hesc : isEscapeChar c = false) :
    isPctRest lit n (l ++ c :: r) = (isPctRest lit n l && isPctString lit r) := by
  obtain ⟨hc, hhex⟩ : c ≠ 0x25 ∧ isHexDigit c = false := by simpa [isEscapeChar] using hesc
  induction l generalizing n with
  | nil => cases n <;> simp [isPctRest, isPctString, hlit, hhex, hc]
  | cons b l ih =>
    cases n with
    | zero =>
      simp only [List.cons_append, isPctRest, ih]
      split
      · rfl
      · rw [Bool.and_assoc]
    | succ n => simp only [List.cons_append, isPctRest, ih, Bool.and_assoc]

theorem isPctString_append_cons {l r : List UInt8} {c : UInt8} (hlit : lit c)
    (hesc : isEscapeChar c = false) :
    isPctString lit (l ++ c :: r) = (isPctString lit l && isPctString lit r) :=
  isPctRest_append_cons hlit hesc

theorem of_mem_isPctRest {n : Nat} {s : List UInt8} (h : isPctRest lit n s) {b : UInt8}
    (hb : b ∈ s) : isEscapeChar b || lit b := by
  induction s generalizing n with
  | nil => cases hb
  | cons c s ih =>
    cases n with
    | zero =>
      simp only [isPctRest] at h
      split at h <;> rename_i hc
      · rcases List.mem_cons.mp hb with rfl | hb
        · rw [hc]
          rfl
        · exact ih h hb
      · simp only [Bool.and_eq_true] at h
        rcases List.mem_cons.mp hb with rfl | hb
        · simp [h.1]
        · exact ih h.2 hb
    | succ n =>
      simp only [isPctRest, Bool.and_eq_true] at h
      rcases List.mem_cons.mp hb with rfl | hb
      · simp [isEscapeChar, h.1]
      · exact ih h.2 hb

theorem notMem_of_isPctString {s : List UInt8} {b : UInt8} (h : isPctString lit s)
    (hb : (isEscapeChar b || lit b) = false) : b ∉ s := by
  intro hm
  rw [of_mem_isPctRest h hm] at hb
  cases hb

theorem isPctString_of_forall {s : List UInt8} (h : ∀ b ∈ s, lit b ∧ b ≠ 0x25) :
    isPctString lit s := by
  induction s with
  | nil => rfl
  | cons c s ih =>
    obtain ⟨hl, hc⟩ := h c (List.mem_cons_self ..)
    have ih := ih fun b hb => h b (List.mem_cons_of_mem _ hb)
    rw [isPctString, isPctRest, if_neg hc, Bool.and_eq_true]
    exact ⟨hl, ih⟩

end

/-! ## Encoding and decoding -/

def hexDigit (n : Nat) : UInt8 := if n < 10 then (0x30 + n).toUInt8 else (0x37 + n).toUInt8

def hexValue (b : UInt8) : Nat :=
  if isDigit b then b.toNat - 0x30 else if b ≤ 0x46 then b.toNat - 0x37 else b.toNat - 0x57

/-- Replace the escapes of a well-formed string by the bytes they stand for. -/
def pctDecode : List UInt8 → List UInt8
  | c :: a :: b :: s =>
    if c = 0x25 then (16 * hexValue a + hexValue b).toUInt8 :: pctDecode s
    else c :: pctDecode (a :: b :: s)
  | s => s

/-- The byte `b`, or its escape if it is not to be kept. -/
def pctByte (keep : UInt8 → Bool) (b : UInt8) : List UInt8 :=
  if keep b then [b] else [0x25, hexDigit (b.toNat / 16), hexDigit (b.toNat % 16)]

def pctEncode (keep : UInt8 → Bool) (s : List UInt8) : List UInt8 := s.flatMap (pctByte keep)

theorem isHexDigit_hexDigit : ∀ n < 16, isHexDigit (hexDigit n) := by decide

theorem hexValue_hexDigit : ∀ n < 16, hexValue (hexDigit n) = n := by decide

theorem pctDecode_cons {c : UInt8} (hc : c ≠ 0x25) (s : List UInt8) :
    pctDecode (c :: s) = c :: pctDecode s := by
  match s with
  | [] | [_] => rfl
  | a :: b :: t => rw [pctDecode, if_neg hc]

section
variable {keep lit : UInt8 → Bool}

theorem pctDecode_pctByte_append (hk : keep 0x25 = false) (b : UInt8) (s : List UInt8) :
    pctDecode (pctByte keep b ++ s) = b :: pctDecode s := by
  unfold pctByte
  split <;> rename_i h
  · refine pctDecode_cons ?_ s
    rintro rfl
    rw [hk] at h
    cases h
  · have hb := b.toNat_lt
    rw [List.cons_append, List.cons_append, List.cons_append, List.nil_append, pctDecode,
      if_pos rfl, hexValue_hexDigit _ (by omega), hexValue_hexDigit _ (by omega),
      Nat.div_add_mod, Nat.toUInt8_eq, UInt8.ofNat_toNat]

/-- Decoding undoes encoding. -/
theorem pctDecode_pctEncode_append (hk : keep 0x25 = false) (l s : List UInt8) :
    pctDecode (pctEncode keep l ++ s) = l ++ pctDecode s := by
  induction l with
  | nil => rfl
  | cons b l ih =>
    rw [pctEncode, List.flatMap_cons, List.append_assoc, pctDecode_pctByte_append hk]
    rw [← pctEncode, ih, List.cons_append]

theorem pctDecode_pctEncode (hk : keep 0x25 = false) :
    Function.LeftInverse pctDecode (pctEncode keep) := by
  intro l
  have h := pctDecode_pctEncode_append hk l []
  rwa [List.append_nil, show pctDecode [] = [] from rfl, List.append_nil] at h

theorem pctEncode_injective (hk : keep 0x25 = false) : Function.Injective (pctEncode keep) :=
  (pctDecode_pctEncode hk).injective

/-- An encoded string is at least as long as the string, and only longer if it differs. -/
theorem pctEncode_length (keep : UInt8 → Bool) (s : List UInt8) :
    pctEncode keep s = s ∨ s.length < (pctEncode keep s).length := by
  induction s with
  | nil => exact .inl rfl
  | cons b s ih =>
    rw [pctEncode, List.flatMap_cons, ← pctEncode, pctByte]
    split
    · rcases ih with ih | ih
      · exact .inl (by rw [ih]; rfl)
      · exact .inr (by simpa using ih)
    · refine .inr ?_
      rcases ih with ih | ih
      · simp [ih]
      · simp only [List.cons_append, List.nil_append, List.length_cons]
        omega

/-- Encoding leaves a string alone exactly if it keeps all its characters. -/
theorem pctEncode_eq_self_iff {s : List UInt8} : pctEncode keep s = s ↔ ∀ b ∈ s, keep b := by
  induction s with
  | nil => simp [pctEncode]
  | cons b s ih =>
    rw [pctEncode, List.flatMap_cons, ← pctEncode, pctByte, List.forall_mem_cons, ← ih]
    split <;> rename_i h
    · simp [h]
    · simp only [h]
      refine iff_of_false (fun he => ?_) (by simp)
      have hlen := congrArg List.length he
      rcases pctEncode_length keep s with h' | h'
      · simp only [h', List.length_append, List.length_cons, List.length_nil] at hlen
        omega
      · simp only [List.length_append, List.length_cons, List.length_nil] at hlen
        omega

/-- What is encoded is well formed. -/
theorem isPctString_pctEncode (hk : keep 0x25 = false) (hlit : ∀ b, keep b → lit b)
    (s : List UInt8) : isPctString lit (pctEncode keep s) := by
  induction s with
  | nil => rfl
  | cons b s ih =>
    have hlt := b.toNat_lt
    rw [pctEncode, List.flatMap_cons, pctByte]
    split <;> rename_i h
    · have hb : b ≠ 0x25 := by
        rintro rfl
        rw [hk] at h
        cases h
      rw [List.singleton_append, isPctString, isPctRest, if_neg hb, hlit b h]
      exact ih
    · rw [isPctString, List.cons_append, isPctRest, if_pos rfl, List.cons_append, isPctRest,
        isHexDigit_hexDigit _ (by omega), List.cons_append, isPctRest,
        isHexDigit_hexDigit _ (by omega)]
      exact ih

theorem of_mem_pctEncode {s : List UInt8} {c : UInt8} (hc : c ∈ pctEncode keep s) :
    isEscapeChar c || keep c := by
  obtain ⟨b, -, hb⟩ := List.mem_flatMap.mp hc
  have hlt := b.toNat_lt
  unfold pctByte at hb
  split at hb <;> rename_i h
  · rw [List.mem_singleton.mp hb, h, Bool.or_true]
  · simp only [List.mem_cons, List.not_mem_nil, or_false] at hb
    obtain rfl | rfl | rfl := hb
    · rfl
    · simp [isEscapeChar, isHexDigit_hexDigit (b.toNat / 16) (by omega)]
    · simp [isEscapeChar, isHexDigit_hexDigit (b.toNat % 16) (by omega)]

end

end Rfc3986
