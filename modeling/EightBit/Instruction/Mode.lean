/-!
# Addressing modes

How the two operand bytes of an instruction are to be understood. A mode fixes
how many operands the instruction is written with in source text, and which of
its operand bytes the machine reads at all: an immediate instruction, say, reads
its first operand byte and never the second.
-/

namespace EightBit

/-- **An addressing mode.** -/
inductive Mode where
  /-- No operand at all. -/
  | implicit
  /-- The accumulator is the operand. -/
  | accumulator
  /-- The first operand byte is the operand. -/
  | immediate
  /-- The operand bytes are an address, the high byte first. -/
  | absolute
  /-- The operand bytes are the address of an address, both with the high byte
  first. -/
  | absoluteIndirect
  /-- The first operand byte is a signed distance from the instruction. -/
  | relative
  /-- Each operand byte is the index of a register. -/
  | registerCoded
  /-- A cell of the first page: the first operand byte plus W. -/
  | indexedW
  /-- A cell of the first page: the first operand byte plus X. -/
  | indexedX
deriving DecidableEq, Repr

namespace Mode

/-- The modes in their customary order. -/
def all : List Mode :=
  [implicit, accumulator, immediate, absolute, absoluteIndirect, relative, registerCoded,
    indexedW, indexedX]

theorem mem_all (mode : Mode) : mode ∈ all := by
  cases mode <;> decide

/-- The name of a mode. -/
def name : Mode → String
  | implicit => "implicit"
  | accumulator => "accumulator"
  | immediate => "immediate"
  | absolute => "absolute"
  | absoluteIndirect => "absolute indirect"
  | relative => "relative"
  | registerCoded => "register-coded"
  | indexedW => "W-indexed"
  | indexedX => "X-indexed"

/-- The number of operands that source text writes for a mode. -/
def operandCount : Mode → Nat
  | implicit | accumulator => 0
  | immediate | absolute | absoluteIndirect | relative => 1
  | registerCoded | indexedW | indexedX => 2

/-- No mode takes more than two operands. -/
theorem operandCount_le_two (mode : Mode) : mode.operandCount ≤ 2 := by
  cases mode <;> decide

end Mode

end EightBit
