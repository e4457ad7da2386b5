import EightBit.Instruction.Mnemonic
import EightBit.Instruction.Mode

/-!
# Problems in source text

Why a line, or a program as a whole, cannot be assembled. Every problem is
reported with the number of the line it was found on.
-/

namespace EightBit

/-- **A problem** in source text. -/
inductive Problem where
  /-- The first token of a line is no mnemonic. -/
  | unknownMnemonic (token : Text)
  /-- No mode of the mnemonic takes so many operands. -/
  | wrongOperandCount (mnemonic : Mnemonic) (count : Nat)
  /-- The machine does not know the mnemonic in this mode. -/
  | unsupportedMode (mnemonic : Mnemonic) (mode : Mode)
  /-- The operands are in the shape of no mode. -/
  | unresolvable (operands : List Text)
  /-- A literal that cannot be read. -/
  | invalidNumber (token : Text)
  /-- A word where there is room for a byte only. -/
  | operandTooWide (operand : Text)
  /-- The body is longer than a header can say. -/
  | programTooLarge (length : Nat)
deriving DecidableEq, Repr

/-- A problem in words. -/
def Problem.message : Problem → String
  | unknownMnemonic token => s!"unknown mnemonic '{String.ofList token}'"
  | wrongOperandCount mnemonic count => s!"{mnemonic.name} does not take {count} operand(s)"
  | unsupportedMode mnemonic mode => s!"{mnemonic.name} has no {mode.name} encoding"
  | unresolvable operands =>
    let list := ", ".intercalate (operands.map String.ofList)
    s!"cannot tell the addressing mode of '{list}'"
  | invalidNumber token => s!"invalid number '{String.ofList token}'"
  | operandTooWide operand => s!"operand '{String.ofList operand}' does not fit in 8 bits"
  | programTooLarge length =>
    s!"program is {length} bytes long, more than a header can describe"

/-- **A problem and where it was found**; lines are counted from one. -/
structure AssemblyError where
  line : Nat
  problem : Problem
deriving DecidableEq, Repr

/-- A problem and its line in words. -/
def AssemblyError.message (e : AssemblyError) : String :=
  s!"line {e.line}: {e.problem.message}"

end EightBit
