/-!
# Bytes and words

What one memory cell or one general register holds is a byte, and an address is
a word. A byte is a number, of either sign as the case may be
(`EightBit.Byte.signed`), and it is eight single bits, which can be looked at and
replaced one by one. What is made of bytes bit by bit is the subject of
`EightBit.Bits`.
-/

namespace EightBit

/-- **A byte**: the content of a memory cell or of a general register. -/
abbrev Byte := UInt8

/-- **A word**: sixteen bits, an address or the program counter. -/
abbrev Word := UInt16

namespace Word

/-- The word with the given high and low byte. -/
def ofBytes (high low : Byte) : Word :=
  UInt16.ofNat (256 * high.toNat + low.toNat)

/-- The high byte of a word. -/
def high (w : Word) : Byte :=
  UInt8.ofNat (w.toNat / 256)

/-- The low byte of a word. -/
def low (w : Word) : Byte :=
  UInt8.ofNat w.toNat

theorem toNat_ofBytes (high low : Byte) :
    (ofBytes high low).toNat = 256 * high.toNat + low.toNat := by
  have hh := high.toNat_lt
  have hl := low.toNat_lt
  rw [ofBytes, UInt16.toNat_ofNat']
  omega

theorem toNat_high (w : Word) : w.high.toNat = w.toNat / 256 := by
  have hw := w.toNat_lt
  rw [high, UInt8.toNat_ofNat']
  omega

theorem toNat_low (w : Word) : w.low.toNat = w.toNat % 256 := by
  rw [low, UInt8.toNat_ofNat']

@[simp] theorem high_ofBytes (high low : Byte) : (ofBytes high low).high = high := by
  have hl := low.toNat_lt
  rw [← UInt8.toNat_inj, toNat_high, toNat_ofBytes]
  omega

@[simp] theorem low_ofBytes (high low : Byte) : (ofBytes high low).low = low := by
  have hl := low.toNat_lt
  rw [← UInt8.toNat_inj, toNat_low, toNat_ofBytes]
  omega

@[simp] theorem ofBytes_high_low (w : Word) : ofBytes w.high w.low = w := by
  rw [← UInt16.toNat_inj, toNat_ofBytes, toNat_high, toNat_low]
  omega

/-- A word shows the low sixteen bits of a number. -/
theorem toNat_ofInt (i : Int) : ((UInt16.ofInt i).toNat : Int) = i % 65536 := by
  rw [UInt16.ofInt, UInt16.toNat_ofNat']
  omega

end Word

/-- The two ways a bit pattern, or a count, can move. -/
inductive Direction where
  /-- Towards the most significant bit, or one up. -/
  | up
  /-- Towards the least significant bit, or one down. -/
  | down
deriving DecidableEq, Repr

namespace Byte

/-- Whether the sign bit is set. -/
def isNegative (b : Byte) : Bool :=
  decide (128 ≤ b.toNat)

/-- Whether no bit is set. -/
def isZero (b : Byte) : Bool :=
  decide (b.toNat = 0)

/-- The byte read as a two's-complement number, from -128 to 127. -/
def signed (b : Byte) : Int :=
  if b.isNegative then (b.toNat : Int) - 256 else b.toNat

/-- A byte stretched to a word that stands for the same signed number. -/
def extend (b : Byte) : Word :=
  UInt16.ofInt b.signed

/-- A byte shows the low eight bits of a number. -/
theorem toNat_ofInt (i : Int) : ((UInt8.ofInt i).toNat : Int) = i % 256 := by
  rw [UInt8.ofInt, UInt8.toNat_ofNat']
  omega

/-- A byte and its complement make up the largest byte. -/
theorem toNat_complement (b : Byte) : (~~~b).toNat + b.toNat + 1 = 256 := by
  have hb := b.toNat_lt
  rw [UInt8.toNat_not, UInt8.size]
  omega

/-- The next byte in the given direction, wrapping around at the ends. -/
def count : Direction → Byte → Byte
  | .up, b => b + 1
  | .down, b => b - 1

/-! ### Single bits -/

/-- The bit at a place, the least significant one being at place 0. -/
def bit (b : Byte) (place : Fin 8) : Bool :=
  b.toNat.testBit place

/-- The byte whose only set bit is the one at the given place. -/
def mask (place : Fin 8) : Byte :=
  UInt8.ofNat (1 <<< place.val)

/-- The place of the one bit that is set, if there is exactly one. -/
def place? (b : Byte) : Option (Fin 8) :=
  (List.finRange 8).find? fun place => mask place == b

/-- The byte with one bit replaced. -/
def setBit (b : Byte) (place : Fin 8) (value : Bool) : Byte :=
  if value then b ||| mask place else b &&& ~~~ mask place

/-- The bits of a byte, the most significant one first. -/
def bits (b : Byte) : List Bool :=
  (List.finRange 8).reverse.map b.bit

end Byte

end EightBit
