import EightBit.Proofs.Machine.Composition
import EightBit.Proofs.Machine.Step

/-!
# Trails

Much of what can be said about all instructions at once relates three things: a
machine, what can be watched, and the machine after that. That memory changes only
where a write can be watched is of this shape
(`EightBit.Action.cell?_step_of_unwritten`), and so is that the program counter stays
where it is until the end of an instruction
(`EightBit.Action.pc_perform_of_not_transfers`).

A **trail** (`EightBit.Trail`) is a relation of this kind that holds of each single
access to memory, to the stack and to the registers, and of several of them in a row.
Then it holds of whole operations, and if it bears with a moving program counter, of
steps (`EightBit.Trail.Moving.along_step`).
-/

namespace EightBit

/-- **A trail**: a relation that holds of all that operations are made of. -/
structure Trail (R : Machine → List Event → Machine → Prop) : Prop where
  /-- Nothing is done. -/
  refl : ∀ m, R m [] m
  /-- One thing after the other is done. -/
  trans : ∀ {m m' m'' es es'}, R m es m' → R m' es' m'' → R m (es ++ es') m''
  /-- Registers change, but for the program counter and SP. -/
  registers : ∀ m r, r.pc = m.registers.pc → r.sp = m.registers.sp →
    R m [] { m with registers := r }
  /-- A character is printed. -/
  print : ∀ m c, R m [.print c] m
  /-- A cell is read, whether it is there or not. -/
  read : ∀ m address, R m [.read address (m.memory.cell? address.toNat)] m
  /-- A cell is written. -/
  write : ∀ m address v, address.toNat < m.memory.size →
    R m [.write address v true] { m with memory := m.memory.put address.toNat v }
  /-- A cell would be written if it were there. -/
  miss : ∀ m address v, ¬address.toNat < m.memory.size → R m [.write address v false] m
  /-- A byte is pushed. -/
  push : ∀ m cell v, m.stack.free = .ok cell → cell.toNat < m.memory.size →
    R m [.write cell v true, .stackMove m.stack.down.pointer] (m.pushed cell v)
  /-- A byte is popped. -/
  pop : ∀ m cell v, m.stack.used = .ok cell → m.memory.cell? cell.toNat = some v →
    R m [.read cell (some v), .write cell 0 true, .stackMove m.stack.up.pointer] (m.popped cell)

/-- **A trail that bears with a moving program counter.** -/
structure Trail.Moving (R : Machine → List Event → Machine → Prop) : Prop extends Trail R where
  /-- Registers change, but for SP. -/
  anyRegisters : ∀ m r, r.sp = m.registers.sp → R m [] { m with registers := r }
  /-- The program counter moves past an instruction. -/
  advance : ∀ m, R m [.advance (m.registers.pc + 3)] m.advanced

/-- **An action goes along a relation** from every machine, whether it ends in a fault
or not. -/
def Action.Along (R : Machine → List Event → Machine → Prop) (α : Type) (x : Action α) : Prop :=
  ∀ m, R m (x m).events (x m).machine

/-- **One action after another** goes along a relation that holds of one thing after the
other. -/
theorem Action.Along.bind {R : Machine → List Event → Machine → Prop} {α β : Type} {x : Action α}
    {f : α → Action β} (hx : Along R α x)
    (htrans : ∀ {m m' m'' es es'}, R m es m' → R m' es' m'' → R m (es ++ es') m'')
    (hf : ∀ a, Along R β (f a)) : Along R β (x >>= f) := by
  intro m
  have hm := hx m
  rcases hxm : x m with ⟨e | a, m₁, es₁⟩
  · -- After a fault nothing else is done, so the way ends where it is.
    rw [hxm] at hm
    rw [bind_error hxm]
    exact hm
  · rw [hxm] at hm
    rw [bind_ok hxm]
    exact htrans hm (hf a m₁)

namespace Trail

variable {R : Machine → List Event → Machine → Prop}

/-- **Going along a trail is compositional.** -/
theorem compositional (h : Trail R) : Compositional (Action.Along R) where
  pure a m := h.refl m
  bind hx hf := hx.bind h.trans hf
  fault f m := h.refl m
  ask g _ m := h.refl m
  update f hpc hsp m := by
    -- A function that carries any program counter along keeps the one there is.
    have hkept := congrArg Registers.pc (hpc m.registers m.registers.pc)
    exact h.registers m (f m.registers) hkept (hsp m.registers)
  print c m := h.print m c
  read address m := by
    have hm := h.read m address
    cases hcell : m.memory.cell? address.toNat with
    | none => rwa [Action.read_error hcell, ← hcell]
    | some v => rwa [Action.read_ok hcell, ← hcell]
  write address v m := by
    by_cases hcell : address.toNat < m.memory.size
    · rw [Action.write_ok hcell]
      exact h.write m address v hcell
    · rw [Action.write_error hcell]
      exact h.miss m address v hcell
  push v m := by
    obtain ⟨f, -, heq⟩ | ⟨cell, -, hcell, heq⟩ | ⟨cell, hfree, hcell, heq⟩ := Action.push_cases v m
    · rw [heq]
      exact h.refl m
    · rw [heq]
      exact h.miss m cell v hcell
    · rw [heq]
      exact h.push m cell v hfree hcell
  pop m := by
    obtain ⟨f, -, heq⟩ | ⟨cell, -, hcell, heq⟩ | ⟨cell, v, hused, hcell, heq⟩ := Action.pop_cases m
    · rw [heq]
      exact h.refl m
    · rw [heq]
      exact hcell ▸ h.read m cell
    · rw [heq]
      exact h.pop m cell v hused hcell

/-- Going along a trail that bears with a moving program counter is compositional with
transfers. -/
theorem Moving.compositional (h : Moving R) : CompositionalWithTransfers (Action.Along R) where
  toCompositional := h.toTrail.compositional
  askAll _ m := h.refl m
  updateAll f hsp m := h.anyRegisters m (f m.registers) (hsp m.registers)
  advance m := by
    rw [Action.advance_eq]
    exact h.advance m

/-- **Every step goes along a trail** that bears with a moving program counter. -/
theorem Moving.along_step (h : Moving R) : Action.step.Along R Unit :=
  h.compositional.step

end Trail

/-! ### Where memory changes -/

/-- Whether an event is a write to the cell at an address. -/
def Event.Writes (address : Nat) : Event → Prop
  | write a _ done => a.toNat = address ∧ done = true
  | _ => False

instance (address : Nat) : DecidablePred (Event.Writes address)
  | .write a _ done => inferInstanceAs (Decidable (a.toNat = address ∧ done = true))
  | .read .. | .print _ | .stackMove _ | .advance _ => instDecidableFalse

/-- Whether none of some events is a write to the cell at an address. -/
def Unwritten (address : Nat) (es : List Event) : Prop :=
  ∀ e ∈ es, ¬e.Writes address

instance (address : Nat) (es : List Event) : Decidable (Unwritten address es) :=
  inferInstanceAs (Decidable (∀ e ∈ es, ¬e.Writes address))

theorem unwritten_append {address : Nat} {es es' : List Event} :
    Unwritten address (es ++ es') ↔ Unwritten address es ∧ Unwritten address es' :=
  List.forall_mem_append

/-- **A cell that no write can be watched at does not change.** -/
theorem Trail.unwritten (address : Nat) : Trail.Moving fun m es m' =>
    Unwritten address es → m'.memory.cell? address = m.memory.cell? address where
  refl m _ := rfl
  trans h h' hes := by
    rw [unwritten_append] at hes
    rw [h' hes.2, h hes.1]
  registers m r _ _ _ := rfl
  print m c _ := rfl
  read m a _ := rfl
  write m a v _ hes := by
    have hne : a.toNat ≠ address := fun ha => hes _ List.mem_cons_self ⟨ha, rfl⟩
    rw [Memory.cell?_put, if_neg fun ha => hne ha.1]
  miss m a v _ _ := rfl
  push m cell v _ _ hes := by
    have hne : cell.toNat ≠ address := fun ha => hes _ List.mem_cons_self ⟨ha, rfl⟩
    rw [Machine.memory_pushed, Memory.cell?_put, if_neg fun ha => hne ha.1]
  pop m cell v _ _ hes := by
    have hne : cell.toNat ≠ address := fun ha =>
      hes _ (List.mem_cons_of_mem _ List.mem_cons_self) ⟨ha, rfl⟩
    rw [Machine.memory_popped, Memory.cell?_put, if_neg fun ha => hne ha.1]
  anyRegisters m r _ _ := rfl
  advance m _ := rfl

/-- **A step changes no cell but where a write can be watched.** -/
theorem Action.cell?_step_of_unwritten {m : Machine} {address : Nat}
    (h : Unwritten address (step m).events) :
    (step m).machine.memory.cell? address = m.memory.cell? address :=
  (Trail.unwritten address).along_step m h

/-- The size of memory never changes. -/
theorem Trail.size : Trail.Moving fun m _ m' => m'.memory.size = m.memory.size where
  refl _ := rfl
  trans h h' := h'.trans h
  registers _ _ _ _ := rfl
  print _ _ := rfl
  read _ _ := rfl
  write _ _ _ _ := Memory.size_put ..
  miss _ _ _ _ := rfl
  push _ _ _ _ _ := Memory.size_put ..
  pop _ _ _ _ _ := Memory.size_put ..
  anyRegisters _ _ _ := rfl
  advance _ := rfl

/-- **A step leaves memory as large as it is.** -/
theorem Action.size_step (m : Machine) : (step m).machine.memory.size = m.memory.size :=
  Trail.size.along_step m

/-! ### Where the program counter changes -/

/-- The program counter stays where it is. -/
theorem Trail.pc : Trail fun m _ m' => m'.registers.pc = m.registers.pc where
  refl _ := rfl
  trans h h' := h'.trans h
  registers _ _ hpc _ := hpc
  print _ _ := rfl
  read _ _ := rfl
  write _ _ _ _ := rfl
  miss _ _ _ _ := rfl
  push _ _ _ _ _ := rfl
  pop _ _ _ _ _ := rfl

/-- **An operation that does not transfer control leaves the program counter alone.** -/
theorem Action.pc_perform_of_not_transfers {operation : Operation} {mode : Mode}
    {first second : Byte} {place : Place} (h : operation.transfers = false) (m : Machine) :
    (perform operation mode first second place m).machine.registers.pc = m.registers.pc :=
  Trail.pc.compositional.perform (fun ht => absurd ht (by rw [h]; decide)) m

end EightBit
