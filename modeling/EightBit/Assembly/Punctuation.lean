/-!
# Punctuation

Four characters of source text have a meaning that can be chosen: the one that
opens a comment, and the ones in front of an immediate operand, of binary digits
and of hexadecimal digits. The single quote, the comma and the parentheses are
always themselves.
-/

namespace EightBit

/-- The character that quotes other characters. -/
def quoteMark : Char := '\x27'

/-- **Punctuation**: the characters of source text that can be chosen. -/
structure Punctuation where
  /-- Everything from here to the end of the line is a comment. -/
  comment : Char := ';'
  /-- The operand that follows is a value and not an address. -/
  immediate : Char := '#'
  /-- The digits that follow are binary. -/
  binary : Char := '%'
  /-- The digits that follow are hexadecimal. -/
  hex : Char := '$'
deriving DecidableEq, Repr

/-- The customary punctuation. -/
def Punctuation.standard : Punctuation := {}

end EightBit
