import EightBit.Memory

/-!
# The stack

A stack that grows downwards in a fixed part of memory. Its pointer is where the
next push lands: it starts at the top, a push writes at it and moves it down, a
pop moves it up again, hands over the byte that stands there and leaves a zero
behind. A full stack has its pointer one below its part of memory, which can be
-1, so the pointer is an integer and not a word; a cell is addressed by its low
sixteen bits.

A stack does not hold the memory it lives in. `EightBit.Stack.free` and
`EightBit.Stack.used` say which cell the next push or pop is about, or why there
is none, and `EightBit.Stack.push` and `EightBit.Stack.pop` work on a memory that
is handed to them. Both leave everything as it was when they fail.
-/

namespace EightBit

/-- **A stack**: the part of memory that it owns, and its pointer. -/
structure Stack where
  /-- The lowest address of the stack. -/
  start : Int
  /-- The number of cells. -/
  size : Int
  /-- Where the next push lands. -/
  pointer : Int
deriving DecidableEq, Repr

namespace Stack

/-- The empty stack on a part of memory, whose bounds are taken as signed numbers
of thirty-two bits. -/
def new (start size : Nat) : Stack :=
  let start := Int.bmod start 0x100000000
  let size := Int.bmod size 0x100000000
  ⟨start, size, start + size - 1⟩

/-- The highest address of the stack, where its first push lands. -/
def top (s : Stack) : Int :=
  s.start + s.size - 1

/-- Whether an address belongs to the stack. -/
def contains (s : Stack) (address : Int) : Bool :=
  decide (s.start ≤ address ∧ address ≤ s.top)

/-- The number of bytes on the stack. -/
def depth (s : Stack) : Nat :=
  (s.top - s.pointer).toNat

/-- A misuse of the stack as it stands. -/
def fault (s : Stack) (misuse : StackMisuse) : Fault :=
  .stackFault misuse s.pointer

/-- The cell that the next push writes, if there is room for one. -/
def free (s : Stack) : Except Fault Word :=
  if s.contains s.pointer then .ok (UInt16.ofInt s.pointer) else .error (s.fault .overflow)

/-- The cell that the next pop reads, if there is a byte on the stack. -/
def used (s : Stack) : Except Fault Word :=
  if s.pointer < s.top then .ok (UInt16.ofInt (s.pointer + 1)) else .error (s.fault .underflow)

/-- The stack with its pointer one lower, as after a push. -/
def down (s : Stack) : Stack :=
  { s with pointer := s.pointer - 1 }

/-- The stack with its pointer one higher, as after a pop. -/
def up (s : Stack) : Stack :=
  { s with pointer := s.pointer + 1 }

/-- **Push** a byte. -/
def push (s : Stack) (m : Memory) (value : Byte) : Except Fault (Stack × Memory) := do
  let cell ← s.free
  let m ← m.write cell value
  return (s.down, m)

/-- **Pop** a byte; its cell is zero afterwards. -/
def pop (s : Stack) (m : Memory) : Except Fault (Byte × Stack × Memory) := do
  let cell ← s.used
  let value ← m.read cell
  let m ← m.write cell 0
  return (value, s.up, m)

/-- The stack with nothing on it. What was pushed stays in memory. -/
def reset (s : Stack) : Stack :=
  { s with pointer := s.top }

/-- Whether a cell may be looked at without popping: it has to belong to the
stack, whether a pushed byte stands in it or not. -/
def visible (s : Stack) (address : Word) : Except Fault Unit :=
  if s.contains address.toNat then .ok () else .error (s.fault .outOfRange)

/-- A cell of the stack, without popping anything. -/
def peek (s : Stack) (m : Memory) (address : Word) : Except Fault Byte := do
  s.visible address
  m.read address

/-! ### Where a stack stands -/

/-- A small number is a signed number of thirty-two bits. -/
theorem bmod_eq {n : Nat} (h : n < 0x80000000) : Int.bmod n 0x100000000 = n := by
  rw [Int.bmod_def]
  split <;> omega

/-- Small bounds are taken as they are. -/
theorem new_eq {start size : Nat} (hstart : start < 0x80000000) (hsize : size < 0x80000000) :
    new start size = ⟨start, size, start + size - 1⟩ := by
  unfold new
  dsimp only
  rw [bmod_eq hstart, bmod_eq hsize]

section

variable {s : Stack} {cell : Word}

theorem contains_iff {address : Int} :
    s.contains address = true ↔ s.start ≤ address ∧ address ≤ s.top := by
  rw [contains, decide_eq_true_iff]

/-- There is room where the pointer points to a cell of the stack. -/
theorem free_eq_ok_iff :
    s.free = .ok cell ↔
      (s.start ≤ s.pointer ∧ s.pointer ≤ s.top) ∧ UInt16.ofInt s.pointer = cell := by
  rw [← contains_iff, free]
  split
  case isTrue h => exact ⟨fun heq => ⟨h, Except.ok.inj heq⟩, fun heq => congrArg Except.ok heq.2⟩
  case isFalse h => exact ⟨(fun heq => nomatch heq), fun heq => absurd heq.1 h⟩

/-- There is a byte where the pointer is below the top. -/
theorem used_eq_ok_iff :
    s.used = .ok cell ↔ s.pointer < s.top ∧ UInt16.ofInt (s.pointer + 1) = cell := by
  rw [used]
  split
  case isTrue h => exact ⟨fun heq => ⟨h, Except.ok.inj heq⟩, fun heq => congrArg Except.ok heq.2⟩
  case isFalse h => exact ⟨(fun heq => nomatch heq), fun heq => absurd heq.1 h⟩

end

end Stack

end EightBit
