import EightBit.Image
import EightBit.Machine.Step

/-!
# Running programs

A program is started at the address of its header. If the header is not accepted
nothing changes but the run state; otherwise the program counter is set to the
first instruction, and steps follow one another until the program counter has
passed the last one, or until a fault. The end of the program is a plain number:
a program may end where the address space does.

Before each instruction the machine can be held up. It asks whether it is to stay
suspended (`EightBit.Suspension`), as often as the answer is yes, and the answer
may depend on everything that was asked before. Each question counts as one
**poll**.

A run need not come to an end, so it is given a budget of polls. A run that uses
it up is paused (`EightBit.Ending.paused`) and can be taken up again
(`EightBit.Machine.resume`); no budget changes what the machine does.
-/

namespace EightBit

namespace Action

/-- The address some bytes past the start of a program, as long as it exists both
in memory and in the address space. -/
def within (start : Word) (offset : Nat) : Action Word := do
  let address := start.toNat + offset
  let size ← ask fun m => m.memory.size
  if address < min size addressSpace then pure (UInt16.ofNat address)
  else fault (.outOfBounds address size)

/-- **Starting a program**: check its header and go to its first instruction. The
result is the address just past its last one. -/
def start (address : Word) : Action Nat := do
  unless (← ask fun m => m.programMemory).contains address.toNat do
    fault (.segmentFault address)
  let marker ← read (← within address 0)
  let high ← read (← within address 1)
  let low ← read (← within address 2)
  unless marker == headerMarker do
    fault (.invalidHeader marker high low)
  let first ← within address 3
  update fun m => { m with
    registers := { m.registers with pc := first }
    state := .running }
  return first.toNat + (Word.ofBytes high low).toNat

/-- **Reset**: empty the stack, clear memory and set all registers to their
values in a new machine. -/
def reset : Action Unit := do
  update fun m => { m with
    stack := m.stack.reset
    memory := m.memory.clear
    registers := {}
    state := .ready }
  report (.advance 0)
  moveStack id

end Action

/-- **A suspension** answers whether a machine is to stay where it is, from its
program counter and the program counters of all polls before, the latest first. -/
abbrev Suspension : Type :=
  Word → List Word → Bool

/-- The suspension that never holds a machine up. -/
def Suspension.never : Suspension := fun _ _ => false

/-- How a run ends. -/
inductive Ending where
  /-- The program counter has passed the end of the program. -/
  | halted
  /-- A fault has stopped the program. -/
  | faulted (fault : Fault)
  /-- The budget is used up; the program ends at `stop`. -/
  | paused (stop : Nat)
deriving DecidableEq, Repr

/-- What a run leaves behind. -/
structure Run where
  ending : Ending
  machine : Machine
  /-- The program counters of all polls, in order. -/
  polls : List Word
  /-- The events, in order. -/
  events : List Event

namespace Machine

/-- Poll and step until the program counter reaches `stop`, a fault occurs or the
budget is used up. The polls and the events so far come with the latest first. -/
def runFrom (suspend : Suspension) (stop : Nat) : (budget : Nat) → (polls : List Word) →
    (journal : List Event) → Machine → Run
  | budget, polls, journal, m =>
    let pc := m.registers.pc
    if stop ≤ pc.toNat then
      ⟨.halted, { m with state := .halted }, polls.reverse, journal.reverse⟩
    else match budget with
      | 0 => ⟨.paused stop, m, polls.reverse, journal.reverse⟩
      | budget + 1 =>
        if suspend pc polls then runFrom suspend stop budget (pc :: polls) journal m
        else match Action.step m with
          | ⟨.ok (), m, events⟩ =>
            runFrom suspend stop budget (pc :: polls) (events.reverse ++ journal) m
          | ⟨.error fault, m, events⟩ =>
            ⟨.faulted fault, { m with state := .faulted }, (pc :: polls).reverse,
              (events.reverse ++ journal).reverse⟩

/-- **Running the program** whose header is at an address. -/
def execute (suspend : Suspension) (budget : Nat) (address : Word) (m : Machine) : Run :=
  match Action.start address m with
  | ⟨.ok stop, m, events⟩ => runFrom suspend stop budget [] events.reverse m
  | ⟨.error fault, m, events⟩ => ⟨.faulted fault, { m with state := .faulted }, [], events⟩

/-- Take up a paused run that nothing suspends. -/
def resume (stop budget : Nat) (m : Machine) : Run :=
  runFrom .never stop budget [] [] m

/-- Run the program at the start of program memory. -/
def run (budget : Nat) (m : Machine) : Run :=
  m.execute .never budget (UInt16.ofNat m.programMemory.start)

/-- Step up to `count` times, but not past a fault, and count the steps that
were completed. -/
def stepTimes : (count : Nat) → Machine → Nat × Outcome Unit :=
  go 0 []
where
  /-- Steps are counted from `done`, and come after the events in the journal,
  the latest of which is in front. -/
  go (done : Nat) (journal : List Event) : Nat → Machine → Nat × Outcome Unit
    | 0, m => (done, ⟨.ok (), m, journal.reverse⟩)
    | count + 1, m =>
      match Action.step m with
      | ⟨.ok (), m, events⟩ => go (done + 1) (events.reverse ++ journal) count m
      | ⟨.error fault, m, events⟩ =>
        (done, ⟨.error fault, m, (events.reverse ++ journal).reverse⟩)

end Machine

end EightBit
