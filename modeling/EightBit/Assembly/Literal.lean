import EightBit.Assembly.Punctuation
import EightBit.Text.Numeral

/-!
# Literals

A number or a character, as an operand writes it. A literal is a byte or a word,
and which of the two it is depends on how it is written: `$0005` is a word and
`$05` is a byte. The binary and hexadecimal notations go by their count of digits,
the decimal one by its value.

A token that is in none of the three notations stands for the code of its first
character, after a quote in front and a quote at the end have been taken off. A
decimal number that needs more than thirty-two bits is in none of the notations.
-/

namespace EightBit

/-! ### Taking characters off -/

/-- What follows a given first character. -/
def after? (c : Char) : Text → Option Text
  | [] => none
  | d :: rest => if d = c then some rest else none

/-- What comes before a given last character. -/
def before? (c : Char) (text : Text) : Option Text :=
  if text.getLast? = some c then some text.dropLast else none

/-- A text without a quote in front and without one at the end. -/
def unquote (text : Text) : Text :=
  let inner := (after? quoteMark text).getD text
  (before? quoteMark inner).getD inner

/-! ### Literals -/

/-- **A literal**: a number, and whether it needs a byte or a word. -/
inductive Literal where
  /-- A number of eight bits. -/
  | byte (value : Byte)
  /-- A number written with, or in need of, sixteen bits. -/
  | word (value : Word)
deriving DecidableEq, Repr

namespace Literal

/-- The value of a literal, as a word. -/
def value : Literal → Word
  | byte b => Word.ofBytes 0 b
  | word w => w

/-- Up to `byteDigits` digits of a base make a byte, and up to twice as many a
word. -/
def ofDigits? (base byteDigits : Nat) (digits : Text) : Option Literal := do
  let n ← Numeral.natural? base digits
  if digits.length ≤ byteDigits then some (.byte (UInt8.ofNat n))
  else if digits.length ≤ 2 * byteDigits then some (.word (UInt16.ofNat n))
  else none

/-- A decimal number of at most thirty-two bits. -/
def decimal? (text : Text) : Option Int :=
  (Numeral.integer? text).filter fun i => -0x80000000 ≤ i ∧ i < 0x80000000

/-- The literal that a decimal number makes, by its value. -/
def ofInt? (i : Int) : Option Literal :=
  if -128 ≤ i ∧ i < 256 then some (.byte (UInt8.ofInt i))
  else if 256 ≤ i ∧ i < 65536 then some (.word (UInt16.ofInt i))
  else none

/-- The code of the first character of a text, if it is an ASCII one. -/
def ofCharacter? : Text → Option Literal
  | [] => none
  | c :: _ => if c.toNat < 128 then some (.byte (UInt8.ofNat c.toNat)) else none

/-- **The literal that a text stands for.** -/
def ofText? (p : Punctuation) (text : Text) : Option Literal :=
  match after? p.binary text with
  | some digits => ofDigits? 2 8 digits
  | none =>
    match after? p.hex text with
    | some digits => ofDigits? 16 2 digits
    | none =>
      match decimal? text with
      | some i => ofInt? i
      | none => ofCharacter? (unquote text)

end Literal

end EightBit
