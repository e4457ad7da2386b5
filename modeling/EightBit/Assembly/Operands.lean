import EightBit.Assembly.Literal
import EightBit.Assembly.Problem
import EightBit.Instruction.Form
import EightBit.Registers

/-!
# Operands

The addressing mode of an instruction is worked out from the shape of its
operands, and with it the two operand bytes:

* no operand – implicit, or accumulator for a mnemonic that is never implicit;
* `(…)` – absolute indirect;
* an immediate marker and a byte – immediate;
* a byte, for a mnemonic that branches – relative;
* any other single literal – absolute;
* two registers, for a mnemonic that copies registers – register-coded;
* a literal and an index register – indexed.

An absolute operand has its high byte first. An indexed one has its low byte
first, since the low byte is all that the machine reads of it.
-/

namespace EightBit

/-- **What the operands of an instruction come down to**: a mode and two operand
bytes. -/
structure Operands where
  mode : Mode
  first : Byte
  second : Byte
deriving DecidableEq, Repr

/-- The mode that an index register stands for. -/
def Register.indexMode? : Register → Option Mode
  | w => some .indexedW
  | x => some .indexedX
  | a | y | z => none

/-- The index registers are the ones that stand for a mode. -/
theorem Register.isIndex_iff {r : Register} :
    r.isIndex = true ↔ ∃ mode, r.indexMode? = some mode := by
  cases r <;> simp [isIndex, indexMode?]

/-- The others stand for none. -/
theorem Register.indexMode?_eq_none_iff {r : Register} :
    r.indexMode? = none ↔ r.isIndex = false := by
  cases r <;> simp [isIndex, indexMode?]

/-- What stands between an opening parenthesis in front and a closing one at the
end. -/
def parenthesized? (text : Text) : Option Text := do
  before? ')' (← after? '(' text)

namespace Operands

/-- A literal that has to be readable. -/
def literal (p : Punctuation) (text : Text) : Except Problem Literal :=
  match Literal.ofText? p text with
  | some l => .ok l
  | none => .error (.invalidNumber text)

/-- An address, with its high byte first. -/
def ofAddress (mode : Mode) (address : Word) : Operands :=
  ⟨mode, address.high, address.low⟩

/-- Two registers by their indices. -/
def ofRegisters (source target : Register) : Operands :=
  ⟨.registerCoded, source.index, target.index⟩

/-- An indexed literal, with its low byte first. -/
def indexed (p : Punctuation) (mode : Mode) (text : Text) : Except Problem Operands := do
  let l ← literal p text
  return ⟨mode, l.value.low, l.value.high⟩

/-- No operand. -/
def ofNone (mnemonic : Mnemonic) : Operands :=
  ⟨if mnemonic.hasMode .implicit then .implicit else .accumulator, 0, 0⟩

/-- One operand. -/
def ofOne (p : Punctuation) (mnemonic : Mnemonic) (operand : Text) : Except Problem Operands :=
  match parenthesized? operand with
  | some inner => do return ofAddress .absoluteIndirect (← literal p inner).value
  | none =>
    match after? p.immediate operand with
    | some inner => do
      match ← literal p inner with
      | .byte b => return ⟨.immediate, b, 0⟩
      | .word _ => throw (.operandTooWide operand)
    | none => do
      match ← literal p operand with
      | .byte b =>
        if mnemonic.hasMode .relative then return ⟨.relative, b, 0⟩
        else return ⟨.absolute, 0, b⟩
      | .word address => return ofAddress .absolute address

/-- Two operands. -/
def ofTwo (p : Punctuation) (mnemonic : Mnemonic) (first second : Text) :
    Except Problem Operands :=
  match Register.ofText? first, Register.ofText? second with
  | some source, some target =>
    if mnemonic.hasMode .registerCoded then .ok (ofRegisters source target)
    else match target.indexMode? with
      | some mode => indexed p mode first
      | none => .ok (ofRegisters source target)
  | none, some target =>
    match target.indexMode? with
    | some mode => indexed p mode first
    | none => .error (.unresolvable [first, second])
  | _, none => .error (.unresolvable [first, second])

/-- **What the operands of a mnemonic come down to.** -/
def resolve (p : Punctuation) (mnemonic : Mnemonic) : List Text → Except Problem Operands
  | [] => .ok (ofNone mnemonic)
  | [operand] => ofOne p mnemonic operand
  | [first, second] => ofTwo p mnemonic first second
  | operands => .error (.unresolvable operands)

end Operands

end EightBit
