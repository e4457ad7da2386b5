import EightBit.Byte

/-!
# The arithmetic unit

Arithmetic is done on single bits. An addition goes through the places of two
bytes from the least significant one up, and each place hands a carry on to the
next (`EightBit.Bits.ripple`); a subtraction goes through them in the same way
and hands on a borrow. A rotation moves every bit one place, lets the carry in at
one end and ejects a bit at the other; a shift is a rotation that lets in zero.

A subtraction reads its carry as **no borrow**, so additions and subtractions
chain over several bytes through one flag. The overflow is about the signed
reading of the bits, and looks at the signs alone. What all this comes to in
numbers is said by `EightBit.Byte.value_add` and the theorems around it.
-/

namespace EightBit

/-- **Eight bits**, the most significant one first. -/
structure Bits where
  toList : List Bool
  length_eq : toList.length = 8
deriving DecidableEq, Repr

/-- The outcome of an addition or a subtraction. -/
structure Sum where
  /-- The eight bits of the result. -/
  value : Byte
  /-- Whether an addition carried out of the top bit, or a subtraction did
  *not* have to borrow. -/
  carry : Bool
  /-- Whether the result, read as a signed number, is not the exact one. -/
  overflow : Bool
deriving DecidableEq, Repr

/-- The outcome of a rotation or a shift. -/
structure Rotation where
  /-- The eight bits of the result. -/
  value : Byte
  /-- The bit that left the byte. -/
  ejected : Bool
deriving DecidableEq, Repr

namespace Bits

/-- The bits of a byte. -/
def ofByte (b : Byte) : Bits where
  toList := b.bits
  length_eq := by simp [Byte.bits]

/-- The byte that makes room for one more bit. -/
def takeIn (byte : Byte) (bit : Bool) : Byte :=
  byte <<< 1 ||| bit.toUInt8

/-- The byte with the given bits, taken in one after the other. -/
def toByte (x : Bits) : Byte :=
  x.toList.foldl takeIn 0

theorem toList_ne_nil (x : Bits) : x.toList ≠ [] :=
  List.ne_nil_of_length_pos (by rw [x.length_eq]; decide)

/-- The sign bit is the first one. -/
def isNegative (x : Bits) : Bool :=
  x.toList.head x.toList_ne_nil

/-! ### Addition and subtraction -/

/-- **A full adder**: one place of a sum and the carry out of it. -/
def fullAdder (a b carry : Bool) : Bool × Bool :=
  (a ^^ b ^^ carry, (a && b) || (carry && (a ^^ b)))

/-- **A full subtractor**: one place of a difference and the borrow out of it. -/
def fullSubtractor (a b borrow : Bool) : Bool × Bool :=
  (a ^^ b ^^ borrow, (!a && b) || (borrow && !(a ^^ b)))

/-- **One place after the other**, from the last and least significant one up. Each
takes in what the one below it hands on, and the lowest one `carry`. -/
def ripple (cell : Bool → Bool → Bool → Bool × Bool) (carry : Bool) :
    List (Bool × Bool) → List Bool × Bool
  | [] => ([], carry)
  | (a, b) :: places =>
    let below := ripple cell carry places
    let place := cell a b below.2
    (place.1 :: below.1, place.2)

theorem length_ripple (cell : Bool → Bool → Bool → Bool × Bool) (carry : Bool)
    (places : List (Bool × Bool)) : (ripple cell carry places).1.length = places.length := by
  induction places with
  | nil => rfl
  | cons place places ih => exact congrArg Nat.succ ih

/-- The places of two operands. -/
def places (x y : Bits) : List (Bool × Bool) :=
  x.toList.zip y.toList

theorem length_places (x y : Bits) : (places x y).length = 8 := by
  rw [places, List.length_zip, x.length_eq, y.length_eq, Nat.min_self]

/-- The bits that come of a ripple through the places of two operands. -/
def combine (cell : Bool → Bool → Bool → Bool × Bool) (x y : Bits) (carry : Bool) : Bits where
  toList := (ripple cell carry (places x y)).1
  length_eq := by rw [length_ripple, length_places]

/-- What the ripple hands on out of the top place. -/
def handedOn (cell : Bool → Bool → Bool → Bool × Bool) (x y : Bits) (carry : Bool) : Bool :=
  (ripple cell carry (places x y)).2

/-- **Addition with carry.** The signed result is wrong when two numbers of one
sign add up to a number of the other. -/
def add (x y : Bits) (carry : Bool) : Sum where
  value := (combine fullAdder x y carry).toByte
  carry := handedOn fullAdder x y carry
  overflow :=
    x.isNegative == y.isNegative && (combine fullAdder x y carry).isNegative != x.isNegative

/-- **Subtraction with borrow**, the borrow being a clear carry on both sides.
The signed result is wrong when the operands differ in sign and the result does
not have the sign of the first. -/
def subtract (x y : Bits) (carry : Bool) : Sum where
  value := (combine fullSubtractor x y !carry).toByte
  carry := !handedOn fullSubtractor x y !carry
  overflow :=
    x.isNegative != y.isNegative &&
      (combine fullSubtractor x y !carry).isNegative != x.isNegative

/-! ### Rotations -/

/-- **Rotation through the carry**: a bit enters at one end and one leaves at the
other. All bits go around once, and the one that has come around is replaced. -/
def rotate : Direction → Bits → (carry : Bool) → Rotation
  | .up, x, carry => {
    value := toByte ⟨(x.toList.rotateLeft 1).set 7 carry, by
      simp [List.rotateLeft, x.length_eq]⟩
    ejected := x.toList.head x.toList_ne_nil }
  | .down, x, carry => {
    value := toByte ⟨(x.toList.rotateRight 1).set 0 carry, by
      simp [List.rotateRight, x.length_eq]⟩
    ejected := x.toList.getLast x.toList_ne_nil }

end Bits

namespace Byte

/-- **Addition with carry**, bit by bit. -/
def add (a b : Byte) (carry : Bool) : Sum :=
  (Bits.ofByte a).add (.ofByte b) carry

/-- **Subtraction with borrow**, bit by bit. -/
def subtract (a b : Byte) (carry : Bool) : Sum :=
  (Bits.ofByte a).subtract (.ofByte b) carry

/-- **Rotation through the carry.** -/
def rotate (direction : Direction) (b : Byte) (carry : Bool) : Rotation :=
  (Bits.ofByte b).rotate direction carry

/-- A shift is a rotation that lets in zero. -/
def shift (direction : Direction) (b : Byte) : Rotation :=
  rotate direction b false

end Byte

end EightBit
