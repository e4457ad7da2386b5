import EightBit.Machine.Basic
import EightBit.Machine.Event

/-!
# Actions

What a machine does is described by actions. An action takes a machine and leaves
behind a machine, the events that can be watched on the way, and a result, which
is a fault if something went wrong (`EightBit.Outcome`). The machine left behind
by a fault is the one that the fault struck, not the one at the start: what has
been done stays done.

Actions are put together by doing one after the other; the events of the second
follow those of the first, and after a fault nothing more is done
(`EightBit.Action.bind_ok`, `EightBit.Action.bind_error`).
-/

namespace EightBit

/-- What an action leaves behind. -/
structure Outcome (α : Type) where
  result : Except Fault α
  machine : Machine
  /-- The events, in the order in which they happened. -/
  events : List Event

/-- **An action** of the machine, with a result of type `α`. -/
def Action (α : Type) : Type :=
  Machine → Outcome α

namespace Action

variable {α β : Type}

/-- The action that does nothing. -/
@[inline] protected def pure (a : α) : Action α := fun m =>
  ⟨.ok a, m, []⟩

/-- One action and then another. -/
@[inline] protected def bind (x : Action α) (f : α → Action β) : Action β := fun m =>
  match x m with
  | ⟨.ok a, m, events⟩ =>
    match f a m with
    | ⟨result, m, more⟩ => ⟨result, m, events ++ more⟩
  | ⟨.error fault, m, events⟩ => ⟨.error fault, m, events⟩

instance : Monad Action where
  pure := Action.pure
  bind := Action.bind

/-- Stop with a fault. -/
def fault (f : Fault) : Action α := fun m =>
  ⟨.error f, m, []⟩

/-- Stop with a fault unless a check passes. -/
def ofExcept : Except Fault α → Action α
  | .ok a => pure a
  | .error f => fault f

/-- Look at the machine. -/
@[inline] def ask (f : Machine → α) : Action α := fun m =>
  ⟨.ok (f m), m, []⟩

/-- Change the machine, in a way that nobody can watch. -/
@[inline] def update (f : Machine → Machine) : Action Unit := fun m =>
  ⟨.ok (), f m, []⟩

/-- Let an event be watched. -/
def report (event : Event) : Action Unit := fun m =>
  ⟨.ok (), m, [event]⟩

/-! ### Memory -/

/-- Read a cell. -/
def read (address : Word) : Action Byte := fun m =>
  match m.memory.read address with
  | .ok value => ⟨.ok value, m, [.read address (some value)]⟩
  | .error f => ⟨.error f, m, [.read address none]⟩

/-- Write a cell. -/
def write (address : Word) (value : Byte) : Action Unit := fun m =>
  if address.toNat < m.memory.size then
    ⟨.ok (), { m with memory := m.memory.put address.toNat value }, [.write address value true]⟩
  else
    ⟨.error (.outOfBounds address.toNat m.memory.size), m, [.write address value false]⟩

/-! ### Registers -/

/-- Change the registers. -/
@[inline] def updateRegisters (f : Registers → Registers) : Action Unit :=
  update fun m => { m with registers := f m.registers }

/-- Change the flags. -/
@[inline] def updateFlags (f : Flags → Flags) : Action Unit :=
  updateRegisters fun r => { r with p := f r.p }

/-- The program counter. -/
def pc : Action Word :=
  ask fun m => m.registers.pc

/-- Set the program counter. -/
def setPC (address : Word) : Action Unit :=
  updateRegisters fun r => { r with pc := address }

/-! ### The stack -/

/-- Move the stack pointer; SP follows it, and the move can be watched. -/
def moveStack (f : Stack → Stack) : Action Unit := do
  update fun m => Machine.showStack { m with stack := f m.stack }
  report (.stackMove (← ask fun m => m.stack.pointer))

/-- Push a byte. -/
def push (value : Byte) : Action Unit := do
  let cell ← ofExcept (← ask fun m => m.stack.free)
  write cell value
  moveStack Stack.down

/-- Pop a byte. -/
def pop : Action Byte := do
  let cell ← ofExcept (← ask fun m => m.stack.used)
  let value ← read cell
  write cell 0
  moveStack Stack.up
  return value

/-- Look at a cell of the stack. -/
def peek (address : Word) : Action Byte := do
  ofExcept (← ask fun m => m.stack.visible address)
  read address

/-! ### How actions compose -/

/-- The second action starts where the first has ended. -/
theorem bind_ok {x : Action α} {f : α → Action β} {m m' : Machine} {a : α} {es : List Event}
    (h : x m = ⟨.ok a, m', es⟩) :
    (x >>= f) m = ⟨(f a m').result, (f a m').machine, es ++ (f a m').events⟩ := by
  simp [bind, Action.bind, h]

/-- After a fault nothing more is done. -/
theorem bind_error {x : Action α} {f : α → Action β} {m m' : Machine} {e : Fault}
    {es : List Event} (h : x m = ⟨.error e, m', es⟩) : (x >>= f) m = ⟨.error e, m', es⟩ := by
  simp [bind, Action.bind, h]

instance : LawfulMonad Action :=
  .mk' Action
    (fun x => by
      funext m
      simp only [Functor.map, Action.bind, Function.comp, Action.pure]
      rcases x m with ⟨_ | _, _, _⟩ <;> simp)
    (fun a f => by
      funext m
      simp [bind, pure, Action.bind, Action.pure])
    (fun x f g => by
      funext m
      simp only [bind, Action.bind]
      rcases x m with ⟨_ | a, m', es⟩
      · rfl
      · simp only
        rcases f a m' with ⟨_ | b, _, _⟩ <;> simp)

end Action

end EightBit
