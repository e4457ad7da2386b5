import EightBit.Machine.Action

/-!
# What an action leaves behind

An action is a computation with three results at once, and opening one by hand means
opening all of what it is made of. This file does that once and for all. For each of
the actions that the others are made of there is one lemma that says when it
succeeds, and with what; for one action after another it is
`EightBit.Action.bind_eq_ok_iff`, so that a success is taken apart with `obtain`.

A push and a pop can go wrong on the way, but never in the middle: either all of it
is done or none (`EightBit.Action.push_cases`, `EightBit.Action.pop_cases`). What is left
behind when it is done has a name, `EightBit.Machine.pushed` and
`EightBit.Machine.popped`.
-/

namespace EightBit

namespace Action

variable {α β : Type} {m m' : Machine} {es : List Event}

/-- **One action after another** succeeds if both do, and the events are those of
both. -/
theorem bind_eq_ok_iff {x : Action α} {f : α → Action β} {b : β} :
    (x >>= f) m = ⟨.ok b, m', es⟩ ↔
      ∃ a m₁ es₁ es₂, x m = ⟨.ok a, m₁, es₁⟩ ∧ f a m₁ = ⟨.ok b, m', es₂⟩ ∧ es = es₁ ++ es₂ := by
  rcases hx : x m with ⟨_ | a, m₁, es₁⟩
  · rw [bind_error hx]
    constructor
    · exact fun h => nomatch h
    · rintro ⟨_, _, _, _, h, -, -⟩
      exact nomatch h
  · rw [bind_ok hx]
    constructor
    · intro h
      rcases hf : f a m₁ with ⟨result, m₂, es₂⟩
      rw [hf] at h
      cases h
      exact ⟨a, m₁, es₁, es₂, rfl, hf, rfl⟩
    · rintro ⟨_, _, _, es₂, h, hf, rfl⟩
      cases h
      rw [hf]

/-- All that the second action knows of the first is what it leaves behind. -/
theorem bind_eq_of_eq {x y : Action α} (h : x m = y m) (f : α → Action β) :
    (x >>= f) m = (y >>= f) m := by
  rcases hy : y m with ⟨_ | a, m₁, es⟩
  · rw [bind_error hy, bind_error (h.trans hy)]
  · rw [bind_ok hy, bind_ok (h.trans hy)]

theorem pure_eq_ok_iff {a b : α} :
    (pure a : Action α) m = ⟨.ok b, m', es⟩ ↔ a = b ∧ m = m' ∧ es = [] := by
  constructor
  · intro h
    cases h
    exact ⟨rfl, rfl, rfl⟩
  · rintro ⟨rfl, rfl, rfl⟩
    rfl

theorem ask_eq_ok_iff {f : Machine → α} {a : α} :
    ask f m = ⟨.ok a, m', es⟩ ↔ f m = a ∧ m = m' ∧ es = [] := by
  constructor
  · intro h
    cases h
    exact ⟨rfl, rfl, rfl⟩
  · rintro ⟨rfl, rfl, rfl⟩
    rfl

/-- Looking at the machine leaves no trace. -/
theorem ask_bind (f : Machine → α) (g : α → Action β) (m : Machine) :
    (ask f >>= g) m = g (f m) m := by
  rw [bind_ok (ask_eq_ok_iff.2 ⟨rfl, rfl, rfl⟩)]
  rfl

/-- Changing the registers always succeeds. -/
theorem updateRegisters_eq_ok_iff {f : Registers → Registers} :
    updateRegisters f m = ⟨.ok (), m', es⟩ ↔
      { m with registers := f m.registers } = m' ∧ es = [] := by
  constructor
  · intro h
    cases h
    exact ⟨rfl, rfl⟩
  · rintro ⟨rfl, rfl⟩
    rfl

theorem fault_ne_ok {f : Fault} {a : α} : fault f m ≠ ⟨.ok a, m', es⟩ :=
  fun h => nomatch h

/-- Reading a cell that is there. -/
theorem read_ok {address : Word} {value : Byte}
    (h : m.memory.cell? address.toNat = some value) :
    read address m = ⟨.ok value, m, [.read address (some value)]⟩ := by
  rw [read, Memory.read, h]

/-- Reading a cell that is not there. -/
theorem read_error {address : Word} (h : m.memory.cell? address.toNat = none) :
    read address m =
      ⟨.error (.outOfBounds address.toNat m.memory.size), m, [.read address none]⟩ := by
  rw [read, Memory.read, h]

/-- Reading succeeds exactly if there is a cell. -/
theorem read_eq_ok_iff {address : Word} {value : Byte} :
    read address m = ⟨.ok value, m', es⟩ ↔
      m.memory.cell? address.toNat = some value ∧ m = m' ∧
        es = [.read address (some value)] := by
  constructor
  · intro h
    cases hcell : m.memory.cell? address.toNat with
    | none => exact nomatch (read_error hcell).symm.trans h
    | some v =>
      cases (read_ok hcell).symm.trans h
      exact ⟨rfl, rfl, rfl⟩
  · rintro ⟨h, rfl, rfl⟩
    exact read_ok h

/-- Writing a cell that is there. -/
theorem write_ok {address : Word} (h : address.toNat < m.memory.size) (value : Byte) :
    write address value m =
      ⟨.ok (), { m with memory := m.memory.put address.toNat value },
        [.write address value true]⟩ :=
  if_pos h

/-- Writing a cell that is not there. -/
theorem write_error {address : Word} (h : ¬address.toNat < m.memory.size) (value : Byte) :
    write address value m =
      ⟨.error (.outOfBounds address.toNat m.memory.size), m, [.write address value false]⟩ :=
  if_neg h

/-- Writing succeeds exactly if there is a cell, and puts the byte there. -/
theorem write_eq_ok_iff {address : Word} {value : Byte} :
    write address value m = ⟨.ok (), m', es⟩ ↔
      address.toNat < m.memory.size ∧
        { m with memory := m.memory.put address.toNat value } = m' ∧
        es = [.write address value true] := by
  by_cases hcell : address.toNat < m.memory.size
  · rw [write_ok hcell]
    constructor
    · intro h
      cases h
      exact ⟨hcell, rfl, rfl⟩
    · rintro ⟨-, rfl, rfl⟩
      rfl
  · rw [write_error hcell]
    constructor
    · exact fun h => nomatch h
    · exact fun h => absurd h.1 hcell

end Action

/-! ### The stack -/

namespace Machine

/-- The machine after a push of a byte to a cell. -/
def pushed (m : Machine) (cell : Word) (value : Byte) : Machine :=
  showStack { m with memory := m.memory.put cell.toNat value, stack := m.stack.down }

/-- The machine after a pop of the byte in a cell. -/
def popped (m : Machine) (cell : Word) : Machine :=
  showStack { m with memory := m.memory.put cell.toNat 0, stack := m.stack.up }

section

variable (m : Machine) (cell : Word) (value : Byte)

@[simp] theorem memory_pushed : (m.pushed cell value).memory = m.memory.put cell.toNat value := rfl

@[simp] theorem memory_popped : (m.popped cell).memory = m.memory.put cell.toNat 0 := rfl

@[simp] theorem pc_pushed : (m.pushed cell value).registers.pc = m.registers.pc := rfl

@[simp] theorem pc_popped : (m.popped cell).registers.pc = m.registers.pc := rfl

@[simp] theorem stack_pushed : (m.pushed cell value).stack = m.stack.down := rfl

@[simp] theorem stack_popped : (m.popped cell).stack = m.stack.up := rfl

end

end Machine

namespace Action

/-- **A push** is done as a whole or not at all: there is no room, or there is no such
cell, or all goes well. -/
theorem push_cases (value : Byte) (m : Machine) :
    (∃ f, m.stack.free = .error f ∧ push value m = ⟨.error f, m, []⟩) ∨
    (∃ cell, m.stack.free = .ok cell ∧ ¬cell.toNat < m.memory.size ∧ push value m =
      ⟨.error (.outOfBounds cell.toNat m.memory.size), m, [.write cell value false]⟩) ∨
    (∃ cell, m.stack.free = .ok cell ∧ cell.toNat < m.memory.size ∧ push value m =
      ⟨.ok (), m.pushed cell value,
        [.write cell value true, .stackMove m.stack.down.pointer]⟩) := by
  rw [push, ask_bind]
  cases m.stack.free with
  | error f => exact Or.inl ⟨f, rfl, bind_error rfl⟩
  | ok cell =>
    rw [ofExcept, pure_bind]
    by_cases h : cell.toNat < m.memory.size
    · refine Or.inr (Or.inr ⟨cell, rfl, h, ?_⟩)
      rw [bind_ok (write_ok h value)]
      rfl
    · -- The stack moves after the write, so it has not moved.
      exact Or.inr (Or.inl ⟨cell, rfl, h, bind_error (write_error h value)⟩)

/-- **A pop** is done as a whole or not at all: there is no byte on the stack, or there
is no such cell, or all goes well. -/
theorem pop_cases (m : Machine) :
    (∃ f, m.stack.used = .error f ∧ pop m = ⟨.error f, m, []⟩) ∨
    (∃ cell, m.stack.used = .ok cell ∧ m.memory.cell? cell.toNat = none ∧ pop m =
      ⟨.error (.outOfBounds cell.toNat m.memory.size), m, [.read cell none]⟩) ∨
    (∃ cell value, m.stack.used = .ok cell ∧ m.memory.cell? cell.toNat = some value ∧ pop m =
      ⟨.ok value, m.popped cell,
        [.read cell (some value), .write cell 0 true, .stackMove m.stack.up.pointer]⟩) := by
  rw [pop, ask_bind]
  cases m.stack.used with
  | error f => exact Or.inl ⟨f, rfl, bind_error rfl⟩
  | ok cell =>
    rw [ofExcept, pure_bind]
    cases hcell : m.memory.cell? cell.toNat with
    | none => exact Or.inr (Or.inl ⟨cell, rfl, hcell, bind_error (read_error hcell)⟩)
    | some value =>
      have hlt : cell.toNat < m.memory.size :=
        Memory.isSome_cell?_iff.1 (by rw [hcell, Option.isSome_some])
      refine Or.inr (Or.inr ⟨cell, value, rfl, hcell, ?_⟩)
      rw [bind_ok (read_ok hcell), bind_ok (write_ok hlt 0)]
      rfl

end Action

end EightBit
