import EightBit.Assembly.Line
import EightBit.Assembly.Operands
import EightBit.Image

/-!
# Assembling

Every line of source text is assembled on its own, to one instruction or to
nothing (`EightBit.assembleLine`), and the instructions in order are the program
(`EightBit.assemble`). The first line with a problem decides what is reported;
only if there is none can the program as a whole turn out to be too large.
-/

namespace EightBit

/-- The longest body that a header can describe. -/
def maxBodyLength : Nat := 65535

/-- **Assembling a line**: to its instruction, or to nothing if there is nothing
on it but blanks and a comment. -/
def assembleLine (p : Punctuation) (line : Text) : Except Problem (Option Triple) :=
  match tokens (code p.comment line) with
  | [] => .ok none
  | name :: operands => do
    let some mnemonic := Mnemonic.ofText? name | throw (.unknownMnemonic name)
    unless mnemonic.modes.any fun mode => mode.operandCount == operands.length do
      throw (.wrongOperandCount mnemonic operands.length)
    let resolved ← Operands.resolve p mnemonic operands
    let some opcode := Form.opcode? ⟨mnemonic, resolved.mode⟩
      | throw (.unsupportedMode mnemonic resolved.mode)
    return some ⟨opcode, resolved.first, resolved.second⟩

/-- The instructions on some lines, the first of which has the given number. -/
def assembleLines (p : Punctuation) (number : Nat) (lines : List Text) :
    Except AssemblyError (List Triple) := do
  let program ← (lines.zipIdx number).mapM fun (line, number) =>
    (assembleLine p line).mapError (AssemblyError.mk number)
  return program.filterMap id

/-- **Assembling a program**: to its image. -/
def assemble (p : Punctuation) (source : Text) : Except AssemblyError (List Byte) := do
  let program ← assembleLines p 1 (lines source)
  let length := instructionWidth * program.length
  if length ≤ maxBodyLength then return image program
  else throw ⟨(lines source).length, .programTooLarge length⟩

end EightBit
