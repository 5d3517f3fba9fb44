import Mathlib.Data.List.Basic

/-!
# Strings and error codes

`std::string` and the buffers of Beast are byte strings. An error code is kept as far as the
sessions look at it: `if (ec)`, and the comparisons with `http::error::end_of_stream` and
`websocket::error::closed`.
-/

namespace TheGame

/-- The contents of a `std::string`, a `std::string_view` or a `flat_buffer`. -/
abbrev Bytes := List UInt8

/-- The bytes of a string literal of the source; all of them are ASCII. -/
def bytes (s : String) : Bytes := s.toList.map fun c => c.toNat.toUInt8

/-- `boost::system::error_code`. -/
inductive ErrorCode
  | success
  /-- `http::error::end_of_stream` -/
  | endOfStream
  /-- `websocket::error::closed` -/
  | closed
  | other (value : Nat)
deriving DecidableEq, Repr

/-- The test `if (ec)`. -/
def ErrorCode.failed : ErrorCode → Bool
  | .success => false
  | _ => true

@[simp] theorem ErrorCode.failed_success : ErrorCode.success.failed = false := rfl

theorem ErrorCode.failed_eq_true {ec : ErrorCode} : ec.failed = true ↔ ec ≠ .success := by
  cases ec <;> simp [failed]

end TheGame
