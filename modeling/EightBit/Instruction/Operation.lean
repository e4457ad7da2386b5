import EightBit.Instruction.Form
import EightBit.Registers

/-!
# Operations

What an instruction does, apart from where its operand comes from. The
forty-eight mnemonics are a couple of dozen operations, most of them with a
parameter: loading is one operation for all five registers, and the six branches
are one that asks for a flag to have a given value.

Each mnemonic is performed in some modes only (`EightBit.Mnemonic.performedModes`).
These are laid down apart from the instruction table, but they agree with it: what
can be decoded can be performed (`EightBit.Form.mem_performedModes`).
-/

namespace EightBit

/-- The bitwise connectives. -/
inductive Gate where
  | and
  | or
  | xor
deriving DecidableEq, Repr

/-- What a gate makes of two bytes. -/
def Gate.apply : Gate → Byte → Byte → Byte
  | and, a, b => a &&& b
  | or, a, b => a ||| b
  | xor, a, b => a ^^^ b

/-- **An operation.** The operand is whatever the addressing mode designates. -/
inductive Operation where
  /-- Nothing. -/
  | idle
  /-- Put the operand into a register. -/
  | load (target : Register)
  /-- Put a register into the operand. -/
  | store (source : Register)
  /-- Go on at the operand. -/
  | jump
  /-- Push the program counter and go on at the operand. -/
  | call
  /-- Go on where the last call was made from. -/
  | comeBack
  /-- Go on at a distance if a flag has the given value. -/
  | branch (flag : Flag) (value : Bool)
  /-- Give a flag a value. -/
  | assign (flag : Flag) (value : Bool)
  /-- Push the status byte. -/
  | pushStatus
  /-- Pop the status byte. -/
  | popStatus
  /-- Push A. -/
  | pushA
  /-- Pop A. -/
  | popA
  /-- Compare a register with the operand. -/
  | compare (register : Register)
  /-- Put A and the operand through a gate, into A. -/
  | combine (gate : Gate)
  /-- Add the operand and the carry to A. -/
  | add
  /-- Subtract the operand and the borrow from A. -/
  | subtract
  /-- Rotate the operand through the carry. -/
  | rotate (direction : Direction)
  /-- Shift the operand. -/
  | shift (direction : Direction)
  /-- Count the operand up or down by one. -/
  | count (direction : Direction)
  /-- Count a register up or down by one. -/
  | countRegister (direction : Direction) (register : Register)
  /-- Copy one register to another, both named by operand bytes. -/
  | move
  /-- Print the operand as a character. -/
  | print
  /-- Print a new line. -/
  | newLine
deriving DecidableEq, Repr

/-- The operation that a mnemonic stands for. -/
def Mnemonic.operation : Mnemonic → Operation
  | nop => .idle
  | lda => .load .a
  | ldw => .load .w
  | ldx => .load .x
  | ldy => .load .y
  | ldz => .load .z
  | sta => .store .a
  | stw => .store .w
  | stx => .store .x
  | sty => .store .y
  | stz => .store .z
  | jmp => .jump
  | jfn => .call
  | ret => .comeBack
  | bcc => .branch .carry false
  | bcs => .branch .carry true
  | bne => .branch .zero false
  | beq => .branch .zero true
  | brp => .branch .negative false
  | brn => .branch .negative true
  | clc => .assign .carry false
  | sec => .assign .carry true
  | clo => .assign .overflow false
  | phs => .pushStatus
  | pos => .popStatus
  | pha => .pushA
  | poa => .popA
  | cmp => .compare .a
  | cpw => .compare .w
  | cpx => .compare .x
  | and => .combine .and
  | ora => .combine .or
  | xor => .combine .xor
  | rol => .rotate .up
  | ror => .rotate .down
  | bsl => .shift .up
  | bsr => .shift .down
  | add => .add
  | sub => .subtract
  | inc => .count .up
  | dec => .count .down
  | inw => .countRegister .up .w
  | dew => .countRegister .down .w
  | inx => .countRegister .up .x
  | dex => .countRegister .down .x
  | mov => .move
  | out => .print
  | onl => .newLine

open Mode in
/-- **The modes that a mnemonic is performed in.** To do nothing is possible in any
of them. -/
def Mnemonic.performedModes : Mnemonic → List Mode
  | nop => Mode.all
  | lda | cmp | add | sub => [absolute, indexedW, indexedX, immediate]
  | ldx | ldy | ldz | and | ora | xor => [absolute, indexedW, immediate]
  | ldw => [absolute, indexedX, immediate]
  | cpw | cpx => [absolute, immediate]
  | sta => [absolute, indexedW, indexedX]
  | stx | sty | stz | inc | dec => [absolute, indexedW]
  | stw => [absolute, indexedX]
  | jmp => [absolute, absoluteIndirect]
  | jfn => [absolute]
  | bcc | bcs | bne | beq | brp | brn => [relative]
  | ret | clc | sec | clo | phs | pos | pha | poa | inw | dew | inx | dex | onl => [implicit]
  | rol | ror | bsl | bsr => [absolute, accumulator]
  | mov => [registerCoded]
  | out => [absolute, indexedW, accumulator]

namespace Form

variable {form : Form} {opcode : Byte}

/-- **The machine performs the forms that it knows**, and besides them only idle ones. -/
theorem mem_performedModes_iff :
    form.mode ∈ form.mnemonic.performedModes ↔ form ∈ table ∨ form.mnemonic = .nop := by
  have hperformed : ∀ mnemonic ∈ Mnemonic.all, mnemonic = .nop ∨
      ∀ mode ∈ mnemonic.performedModes, ⟨mnemonic, mode⟩ ∈ table := by decide +kernel
  have hknown : ∀ form ∈ table, form.mode ∈ form.mnemonic.performedModes := by decide +kernel
  constructor
  · intro h
    rcases hperformed _ form.mnemonic.mem_all with hnop | htable
    · exact Or.inr hnop
    · exact Or.inl (htable _ h)
  · rintro (htable | hnop)
    · exact hknown form htable
    · rw [hnop]
      exact form.mode.mem_all

/-- **What is decoded can be performed.** -/
theorem mem_performedModes (h : ofOpcode? opcode = some form) :
    form.mode ∈ form.mnemonic.performedModes :=
  mem_performedModes_iff.2 (Or.inl (List.mem_of_getElem? h))

end Form

end EightBit
