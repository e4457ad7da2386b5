import EightBit.Instruction.Mode
import EightBit.Machine.Action

/-!
# Places

The operand of an instruction is a register, a value that stands in the
instruction itself, or a cell of memory. Which one it is follows from the mode,
the operand bytes and, for the indexed modes, the index registers
(`EightBit.Mode.place`). An indexed operand never leaves the first page of
memory: the sum wraps around within a byte.

A value that stands in the instruction can be read and not written. No form in
the table writes to one, so a write to it is simply dropped.
-/

namespace EightBit

/-- **A place** that an operand can be in. -/
inductive Place where
  /-- A general register. -/
  | register (register : Register)
  /-- A value that the instruction itself holds. -/
  | value (value : Byte)
  /-- A cell of memory. -/
  | cell (address : Word)
deriving DecidableEq, Repr

/-- **The operand of an instruction**, from its mode and its operand bytes. A mode
without an operand of its own stands for the accumulator; the address of an
address designates the first of the two cells that hold the latter. -/
def Mode.place (mode : Mode) (r : Registers) (first second : Byte) : Place :=
  match mode with
  | implicit | accumulator => .register .a
  | immediate | relative | registerCoded => .value first
  | absolute | absoluteIndirect => .cell (Word.ofBytes first second)
  | indexedW => .cell (Word.ofBytes 0 (first + r.w))
  | indexedX => .cell (Word.ofBytes 0 (first + r.x))

namespace Place

/-- Read what stands in a place. -/
def fetch : Place → Action Byte
  | register r => Action.ask fun m => m.registers.get r
  | value v => pure v
  | cell address => Action.read address

/-- Write a byte to a place. -/
def put : Place → Byte → Action Unit
  | register r, v => Action.updateRegisters fun rs => rs.set r v
  | value _, _ => pure ()
  | cell address, v => Action.write address v

/-- Whether a place is a register. -/
def isRegister : Place → Bool
  | register _ => true
  | value _ | cell _ => false

end Place

end EightBit
