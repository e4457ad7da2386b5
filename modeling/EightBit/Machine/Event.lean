import EightBit.Byte

/-!
# Events

Everything about a machine at work that can be watched from outside: each access
to a single cell of memory, each character it prints, the program counter after
each completed instruction, and the stack pointer after each push and pop.

Events come out of a machine and never go back in, so nothing it does can depend
on what it did before but through its state.
-/

namespace EightBit

/-- **An event**: something that a machine does and that can be watched. -/
inductive Event where
  /-- A read of a cell, with the byte found there, or none if memory has no such
  cell. -/
  | read (address : Word) (value : Option Byte)
  /-- A write of a byte to a cell, and whether memory has that cell. -/
  | write (address : Word) (value : Byte) (done : Bool)
  /-- A character of output. -/
  | print (character : Char)
  /-- The program counter moved on, at the end of an instruction or by a reset. -/
  | advance (pc : Word)
  /-- The stack pointer moved. -/
  | stackMove (pointer : Int)
deriving DecidableEq, Repr

namespace Event

/-- The character that an event prints, if it prints one. -/
def character? : Event → Option Char
  | print character => some character
  | _ => none

/-- The program counter that an event reports, if it reports one. -/
def pc? : Event → Option Word
  | advance pc => some pc
  | _ => none

/-- The stack pointer that an event reports, if it reports one. -/
def pointer? : Event → Option Int
  | stackMove pointer => some pointer
  | _ => none

end Event

/-- The text printed by a run of events. -/
def printed (events : List Event) : List Char :=
  events.filterMap Event.character?

/-- What is printed later comes later. -/
theorem printed_append (events more : List Event) :
    printed (events ++ more) = printed events ++ printed more :=
  List.filterMap_append

end EightBit
