import EightBit.Text.Numeral

/-!
# Faults

What stops a machine dead. A fault says what went wrong and with which bytes and
addresses; `EightBit.Fault.message` is the one place that puts it in words.

An address is a plain number here: a program can be said to reach past the end of
a memory that itself reaches past the sixteen bits of a word.
-/

namespace EightBit

/-- The ways in which a stack can be misused. -/
inductive StackMisuse where
  /-- A push with no room left. -/
  | overflow
  /-- A pop with nothing on the stack. -/
  | underflow
  /-- A look at a cell that the stack does not own. -/
  | outOfRange
deriving DecidableEq, Repr

/-- **A fault**: the reason why a machine stopped before the end of its program. -/
inductive Fault where
  /-- A program was started outside the memory that programs may start in. -/
  | segmentFault (start : Word)
  /-- The three bytes at the start are not the header of a program. -/
  | invalidHeader (marker high low : Byte)
  /-- The byte at an address is no opcode. -/
  | illegalInstruction (opcode : Byte) (address : Word)
  /-- The stack was misused while its pointer stood at the given place. -/
  | stackFault (misuse : StackMisuse) (pointer : Int)
  /-- No general register has this index. -/
  | invalidRegister (index : Byte)
  /-- An address at or past the end of a memory of the given size. -/
  | outOfBounds (address size : Nat)
deriving DecidableEq, Repr

/-- The word for a misuse of the stack. -/
def StackMisuse.name : StackMisuse → String
  | overflow => "Overflow"
  | underflow => "Underflow"
  | outOfRange => "OutOfRange"

/-- A fault in words. -/
def Fault.message : Fault → String
  | segmentFault start =>
    s!"SEGFAULT: start address {String.ofList (Numeral.hexWord start)} is outside of program memory"
  | invalidHeader marker high low =>
    let bytes := [marker, high, low].map fun b => String.ofList (Numeral.hexByte b)
    "INVALID HEADER [" ++ ", ".intercalate bytes ++ "]"
  | illegalInstruction opcode address =>
    let byte := String.ofList (Numeral.hexByte opcode)
    let place := String.ofList (Numeral.hexWord address)
    s!"illegal instruction {byte} at {place}"
  | stackFault misuse pointer =>
    let place := String.ofList (Numeral.decimal pointer)
    s!"stack fault ({misuse.name}) with pointer at {place}"
  | invalidRegister index => s!"no register with index {index.toNat}"
  | outOfBounds address size =>
    let place := String.ofList (Numeral.hexAddress address)
    s!"address 0x{place} is outside of {size} bytes of memory"

end EightBit
