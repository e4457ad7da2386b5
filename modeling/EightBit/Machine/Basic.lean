import EightBit.Layout
import EightBit.Registers
import EightBit.Stack

/-!
# The machine

A machine is its registers, its stack, its memory, the region of memory that
programs may start in, and where it is in the life of a program. Building one
checks the layout; from then on the two regions never change.

The register SP shows the low byte of the stack pointer, from the very first
state on.
-/

namespace EightBit

/-- Where a machine is in the life of a program. -/
inductive RunState where
  /-- No header has been accepted since the last reset. -/
  | ready
  /-- A program is under way. -/
  | running
  /-- The program counter has passed the end of the program. -/
  | halted
  /-- A fault has stopped the program. -/
  | faulted
deriving DecidableEq, Repr

/-- **A machine**: a processor together with its memory. -/
structure Machine where
  registers : Registers
  stack : Stack
  /-- Where programs may start. -/
  programMemory : Region
  state : RunState
  memory : Memory
deriving Repr

namespace Machine

/-- The machine with SP showing where the stack stands. -/
def showStack (m : Machine) : Machine :=
  { m with registers := { m.registers with sp := UInt8.ofInt m.stack.pointer } }

/-- **A new machine** with the given layout and number of memory cells, if the
layout is accepted. -/
def new (layout : Layout) (memorySize : Nat) : Except LayoutError Machine := do
  layout.check
  return showStack {
    registers := {}
    stack := .new layout.stack.start layout.stack.size
    programMemory := layout.programMemory
    state := .ready
    memory := .zeros memorySize }

/-- The machine with a run of bytes loaded into its memory. -/
def load (m : Machine) (address : Nat) (image : List Byte) : Except Fault Machine := do
  return { m with memory := ← m.memory.load address image }

end Machine

end EightBit
