import EightBit.Bits
import EightBit.Instruction.Form
import EightBit.Instruction.Operation
import EightBit.Machine.Place

/-!
# One instruction

An instruction is three bytes. A step reads them at the program counter, finds
the form that the first of them stands for, performs its operation on the operand
that the other two designate, and moves the program counter on by three bytes.

Jumps are no exception to the last rule. A jump lands three bytes past its target,
a call pushes its own address so that the return lands three bytes past it, and a
branch takes the three bytes off beforehand, so that its distance counts from the
branch itself.

Whatever can fail in an operation is done before anything is changed, with two
exceptions that push and pop two bytes: a call and a return can fail with one of
the two moved.

That a form is decoded and yet not performed is provided for, and never happens
(`EightBit.Action.dispatch_eq`).
-/

namespace EightBit

namespace Action

/-- Set the flags by a result. -/
def setResult (result : Byte) : Action Unit :=
  updateRegisters fun r => r.withResult result

/-- Put a result into a register and set the flags by it. -/
def setRegister (register : Register) (result : Byte) : Action Unit :=
  updateRegisters fun r => (r.set register result).withResult result

/-- Go on at an address, or at the address that two cells hold. -/
def jump (mode : Mode) (target : Word) : Action Unit :=
  match mode with
  | .absoluteIndirect => do
    let high ← read target
    let low ← read (target + 1)
    setPC (Word.ofBytes high low)
  | _ => setPC target

/-- Push the program counter, the high byte first, and go on at an address. -/
def call (target : Word) : Action Unit := do
  let here ← pc
  push here.high
  push here.low
  setPC target

/-- Pop the program counter. -/
def comeBack : Action Unit := do
  let low ← pop
  let high ← pop
  setPC (Word.ofBytes high low)

/-- Go on at a signed distance from this instruction if a flag has the given
value. -/
def branch (flag : Flag) (value : Bool) (distance : Byte) : Action Unit :=
  updateRegisters fun r =>
    if r.p.get flag = value then { r with pc := r.pc + distance.extend - 3 } else r

/-- The flags that compare a register with a value as unsigned numbers: the carry
is set if it is not smaller, the sign if it is. -/
def compare (register : Register) (value : Byte) : Action Unit :=
  updateRegisters fun r =>
    let difference := (r.get register).subtract value true
    { r with p := { r.p with
        carry := difference.carry
        zero := difference.value.isZero
        negative := !difference.carry } }

/-- Put a sum into A and set the flags by it. -/
def accumulate (operation : Byte → Byte → Bool → Sum) (value : Byte) : Action Unit :=
  updateRegisters fun r =>
    let sum := operation r.a value r.p.carry
    { r with
      a := sum.value
      p := { r.p.withResult sum.value with carry := sum.carry, overflow := sum.overflow } }

/-- Count the byte in a place up or down by one. -/
def count (direction : Direction) (place : Place) : Action Unit := do
  let result := Byte.count direction (← place.fetch)
  place.put result
  setResult result

/-- Write a rotated or shifted byte back to its place. The carry takes the bit
that was ejected; whether the result is zero is recorded only on request. -/
def finishRotation (place : Place) (rotation : Rotation) (recordZero : Bool) : Action Unit := do
  place.put rotation.value
  updateFlags fun p => { p with
    carry := rotation.ejected
    negative := rotation.value.isNegative
    zero := if recordZero then rotation.value.isZero else p.zero }

/-- Rotate the byte in a place through the carry. Only in a register does a
rotation record whether the result is zero. -/
def rotate (direction : Direction) (place : Place) : Action Unit := do
  let value ← place.fetch
  let carry ← ask fun m => m.registers.p.carry
  finishRotation place (value.rotate direction carry) place.isRegister

/-- Shift the byte in a place; a shift never records whether the result is
zero. -/
def shift (direction : Direction) (place : Place) : Action Unit := do
  let value ← place.fetch
  finishRotation place (value.shift direction) false

/-- Copy one register to another, both named by their indices. -/
def move (source target : Byte) : Action Unit := do
  let some source := Register.ofIndex? source | fault (.invalidRegister source)
  let some target := Register.ofIndex? target | fault (.invalidRegister target)
  setRegister target (← ask fun m => m.registers.get source)

/-- **What an operation does**, given the mode of the instruction, its operand
bytes, and the place that these designate. -/
def perform (operation : Operation) (mode : Mode) (first second : Byte) (place : Place) :
    Action Unit :=
  match operation with
  | .idle => pure ()
  | .load target => do setRegister target (← place.fetch)
  | .store source => do place.put (← ask fun m => m.registers.get source)
  | .jump => jump mode (Word.ofBytes first second)
  | .call => call (Word.ofBytes first second)
  | .comeBack => comeBack
  | .branch flag value => branch flag value first
  | .assign flag value => updateFlags fun p => p.set flag value
  | .pushStatus => do push (← ask fun m => m.registers.p.toByte)
  | .popStatus => do
    let status ← pop
    updateFlags fun _ => .ofByte status
  | .pushA => do push (← ask fun m => m.registers.a)
  | .popA => do setRegister .a (← pop)
  | .compare register => do compare register (← place.fetch)
  | .combine gate => do
    let value ← place.fetch
    setRegister .a (gate.apply (← ask fun m => m.registers.a) value)
  | .add => do accumulate Byte.add (← place.fetch)
  | .subtract => do accumulate Byte.subtract (← place.fetch)
  | .rotate direction => rotate direction place
  | .shift direction => shift direction place
  | .count direction => count direction place
  | .countRegister direction register => count direction (.register register)
  | .move => move first second
  | .print => do report (.print (Char.ofNat (← place.fetch).toNat))
  | .newLine => report (.print '\n')

/-- Move the program counter past the instruction; this can be watched. -/
def advance : Action Unit := do
  let next := (← pc) + 3
  setPC next
  report (.advance next)

/-- **Perform a form** on the operand that the operand bytes designate. A form that
is not performed would be illegal, as an opcode without a form is. -/
def dispatch (form : Form) (opcode first second : Byte) (address : Word) : Action Unit := do
  if form.mode ∈ form.mnemonic.performedModes then
    let place ← ask fun m => form.mode.place m.registers first second
    perform form.mnemonic.operation form.mode first second place
  else
    fault (.illegalInstruction opcode address)

/-- **One step**: fetch, decode, perform and move on. -/
def step : Action Unit := do
  let address ← pc
  let opcode ← read address
  let first ← read (address + 1)
  let second ← read (address + 2)
  let some form := Form.ofOpcode? opcode | fault (.illegalInstruction opcode address)
  dispatch form opcode first second address
  advance

end Action

end EightBit
