import EightBit.Fault
import EightBit.Image
import EightBit.Instruction.Form
import EightBit.Registers

/-!
# Listings

A listing writes the body of an image back as source text, one line for each
instruction. Every line assembles to the bytes it was written from, but for the
operand bytes that the machine never reads, which come back as zero.

What is wrong with an image is found from the front: the header first, then the
length it announces, then the instructions one by one, and at last an instruction
that is cut short.
-/

namespace EightBit

namespace Triple

/-- The register with a given index, which has to exist. -/
def register (index : Byte) : Except Fault Register :=
  match Register.ofIndex? index with
  | some register => .ok register
  | none => .error (.invalidRegister index)

/-- A base in the first page in two digits, or, for as much as the second byte is
not zero, both bytes in four, with the second byte in front. -/
def pageOffset (t : Triple) : Text :=
  if t.second = 0 then '$' :: Numeral.hexByte t.first
  else '$' :: Numeral.hexWord (Word.ofBytes t.second t.first)

/-- The operands of an instruction in a given mode, each with what stands in front
of it on the line. -/
def operandText (t : Triple) : Mode → Except Fault Text
  | .implicit | .accumulator => .ok []
  | .immediate => .ok (" #$".toList ++ Numeral.hexByte t.first)
  | .absolute => .ok (" $".toList ++ Numeral.hexWord (Word.ofBytes t.first t.second))
  | .absoluteIndirect =>
    .ok (" ($".toList ++ Numeral.hexWord (Word.ofBytes t.first t.second) ++ [')'])
  | .relative => .ok (' ' :: Numeral.decimal t.first.signed)
  | .registerCoded => do
    let source ← register t.first
    let target ← register t.second
    return ' ' :: source.name ++ ", ".toList ++ target.name
  | .indexedW => .ok (' ' :: t.pageOffset ++ ", ".toList ++ Register.w.name)
  | .indexedX => .ok (' ' :: t.pageOffset ++ ", ".toList ++ Register.x.name)

/-- **The line of source text for an instruction** at an address. -/
def listing (t : Triple) (address : Word) : Except Fault Text := do
  let some form := Form.ofOpcode? t.opcode | throw (.illegalInstruction t.opcode address)
  return form.mnemonic.text ++ (← t.operandText form.mode)

end Triple

/-- The lines for the instructions of a body, counting addresses from the start of
the image. -/
def listBody (program : List Triple) : Except Fault (List Text) :=
  (program.zipIdx 1).mapM fun (t, number) =>
    t.listing (UInt16.ofNat (instructionWidth * number))

/-- **The listing of an image.** -/
def disassemble (image : List Byte) : Except Fault (List Text) :=
  match image with
  | marker :: high :: low :: rest => do
    unless marker == headerMarker do
      throw (.invalidHeader marker high low)
    let length := (Word.ofBytes high low).toNat
    unless length ≤ rest.length do
      throw (.outOfBounds (headerLength + length - 1) image.length)
    let (program, cut) := Triple.ofBytes (rest.take length)
    let lines ← listBody program
    unless cut.isEmpty do
      throw (.outOfBounds (headerLength + length) image.length)
    return lines
  | _ => .error (.outOfBounds (headerLength - 1) image.length)

end EightBit
