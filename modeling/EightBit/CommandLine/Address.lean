import EightBit.Text.Numeral

/-!
# Addresses on the command line

An address is written in hexadecimal after `$` or `0x`, and in decimal otherwise.
One plus sign may stand in front of the digits, any number of leading zeros may
follow, and the value has to fit in a word.

What is wrong with an address is found by reading its digits from the left: the
first character that is no digit, or the first digit with which the value no
longer fits.
-/

namespace EightBit

/-- What can be wrong with the digits of a number. -/
inductive DigitsError where
  /-- There is nothing to read. -/
  | empty
  /-- A character is not a digit, or there is a sign and nothing else. -/
  | invalidDigit
  /-- The value is larger than what it is read for. -/
  | tooLarge
deriving DecidableEq, Repr

/-- What is wrong with the digits of a number, in words. -/
def DigitsError.message : DigitsError → String
  | empty => "cannot parse integer from empty string"
  | invalidDigit => "invalid digit found in string"
  | tooLarge => "number too large to fit in target type"

namespace Numeral

/-- The value of some digits after those that make `value`, as long as it stays at
or below a limit. -/
def boundedFrom (base limit : Nat) : (value : Nat) → Text → Except DigitsError Nat
  | value, [] => .ok value
  | value, c :: rest =>
    match digitValue? base c with
    | none => .error .invalidDigit
    | some d =>
      if base * value + d ≤ limit then boundedFrom base limit (base * value + d) rest
      else .error .tooLarge

/-- **A number up to a limit**, with a plus sign in front or without. -/
def bounded (base limit : Nat) : Text → Except DigitsError Nat
  | [] => .error .empty
  | ['+'] => .error .invalidDigit
  | '+' :: digits => boundedFrom base limit 0 digits
  | digits => boundedFrom base limit 0 digits

end Numeral

/-- The base of an address and its digits. -/
def addressDigits : Text → Nat × Text
  | '$' :: digits => (16, digits)
  | '0' :: 'x' :: digits => (16, digits)
  | digits => (10, digits)

/-- **Reading an address.** -/
def readAddress (text : Text) : Except DigitsError Word := do
  let (base, digits) := addressDigits text
  return UInt16.ofNat (← Numeral.bounded base 65535 digits)

/-- What is wrong with an address, in words. -/
def addressMessage (text : Text) (e : DigitsError) : String :=
  s!"'{String.ofList text}' is not an address: {e.message}"

end EightBit
