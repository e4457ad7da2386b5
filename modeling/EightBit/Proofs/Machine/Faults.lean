import EightBit.Proofs.Machine.Composition
import EightBit.Proofs.Machine.Step

/-!
# How an operation can fail

An operation has three ways to fail. It can push or pop where the stack does not allow it,
it can name a register that does not exist, and it can get to a cell that memory does not
have. Which of the three are open to an operation is a matter of the operation itself and
of its operand bytes (`EightBit.Operation.CanFail`), and there is no other
(`EightBit.Action.failsOnly_perform`).

A memory that spans the address space has a cell at every address. There an instruction is
always fetched (`EightBit.Machine.exists_fetches`), and the third way is closed
(`EightBit.Operation.CanFail.of_spans`).
-/

namespace EightBit

/-- **The faults that are open to an operation** with its operand bytes, on a machine with
so many cells. -/
inductive Operation.CanFail (operation : Operation) (first second : Byte) (size : Nat) :
    Fault → Prop
  /-- There is no room for a push, or nothing for a pop. -/
  | misuse {misuse : StackMisuse} {pointer : Int} : operation.usesStack = true →
    misuse ≠ .outOfRange → CanFail operation first second size (.stackFault misuse pointer)
  /-- An operand byte that has to name a register names none. -/
  | register {index : Byte} : operation = .move → index ∈ [first, second] →
    Register.ofIndex? index = none → CanFail operation first second size (.invalidRegister index)
  /-- There is no cell at an address. -/
  | missing {address : Word} : size ≤ address.toNat →
    CanFail operation first second size (.outOfBounds address.toNat size)

/-- Where memory spans the address space, no cell is missing. -/
theorem Operation.CanFail.of_spans {operation : Operation} {first second : Byte} {size : Nat}
    {fault : Fault} (h : operation.CanFail first second size fault) (hsize : addressSpace ≤ size) :
    (∃ misuse pointer, fault = .stackFault misuse pointer ∧ misuse ≠ .outOfRange) ∨
      ∃ index ∈ [first, second], fault = .invalidRegister index ∧ operation = .move ∧
        Register.ofIndex? index = none := by
  cases h with
  | misuse _ hmisuse => exact Or.inl ⟨_, _, rfl, hmisuse⟩
  | register hmove hindex hnone => exact Or.inr ⟨_, hindex, rfl, hmove, hnone⟩
  | @missing address haddress =>
    exact absurd (Nat.le_trans hsize haddress) (Nat.not_le_of_lt address.toNat_lt)

/-- There is no cell at and past the size. -/
theorem Memory.size_le_of_cell?_eq_none {m : Memory} {address : Nat}
    (h : m.cell? address = none) : m.size ≤ address := by
  rw [← Nat.not_lt, ← isSome_cell?_iff, h]
  exact Bool.false_ne_true

namespace Stack

variable {s : Stack} {f : Fault}

/-- There is no room only if that would be an overflow. -/
theorem eq_of_free_eq_error (h : s.free = .error f) : f = s.fault .overflow := by
  rw [free] at h
  split at h
  · cases h
  · exact (Except.error.inj h).symm

/-- There is nothing there only if that would be an underflow. -/
theorem eq_of_used_eq_error (h : s.used = .error f) : f = s.fault .underflow := by
  rw [used] at h
  split at h
  · cases h
  · exact (Except.error.inj h).symm

end Stack

/-- **An outcome fails only** in some ways, and memory is as large as it has to be. -/
structure Outcome.FailsOnly {α : Type} (size : Nat) (F : Fault → Prop) (o : Outcome α) : Prop where
  size : o.machine.memory.size = size
  fails : ∀ fault, o.result = .error fault → F fault

namespace Outcome.FailsOnly

variable {α : Type} {size : Nat} {F : Fault → Prop} {m : Machine} {es : List Event}

theorem of_ok {a : α} (hm : m.memory.size = size) : (⟨.ok a, m, es⟩ : Outcome α).FailsOnly size F :=
  ⟨hm, fun _ h => nomatch h⟩

theorem of_error {f : Fault} (hm : m.memory.size = size) (hf : F f) :
    (⟨.error f, m, es⟩ : Outcome α).FailsOnly size F :=
  ⟨hm, fun _ h => Except.error.inj h ▸ hf⟩

end Outcome.FailsOnly

namespace Action

/-- **An action fails only** in some ways, and does not change the size of memory. -/
def FailsOnly (size : Nat) (F : Fault → Prop) (α : Type) (x : Action α) : Prop :=
  ∀ m : Machine, m.memory.size = size → (x m).FailsOnly size F

variable {α β : Type} {size : Nat} {F : Fault → Prop}

theorem FailsOnly.bind {x : Action α} {f : α → Action β} (hx : FailsOnly size F α x)
    (hf : ∀ a, FailsOnly size F β (f a)) : FailsOnly size F β (x >>= f) := by
  intro m hm
  have hfirst := hx m hm
  rcases hxm : x m with ⟨e | a, m₁, es⟩
  · rw [hxm] at hfirst
    rw [bind_error hxm]
    exact .of_error hfirst.size (hfirst.fails e rfl)
  · rw [hxm] at hfirst
    rw [bind_ok hxm]
    obtain ⟨hsize, hfails⟩ := hf a m₁ hfirst.size
    exact ⟨hsize, hfails⟩

theorem failsOnly_fault {f : Fault} (h : F f) : FailsOnly size F α (fault f) :=
  fun _ hm => .of_error hm h

theorem failsOnly_ask (f : Machine → α) : FailsOnly size F α (ask f) :=
  fun _ hm => .of_ok hm

theorem failsOnly_updateRegisters (f : Registers → Registers) :
    FailsOnly size F Unit (updateRegisters f) :=
  fun _ hm => .of_ok hm

theorem failsOnly_setPC (address : Word) : FailsOnly size F Unit (setPC address) :=
  failsOnly_updateRegisters _

section

variable (hmissing : ∀ address : Word, size ≤ address.toNat → F (.outOfBounds address.toNat size))

include hmissing

/-- The size of memory is part of the fault. -/
theorem fails_of_missing {m : Machine} {address : Word} (hm : m.memory.size = size)
    (h : m.memory.size ≤ address.toNat) : F (.outOfBounds address.toNat m.memory.size) := by
  rw [hm] at h ⊢
  exact hmissing address h

theorem failsOnly_read (address : Word) : FailsOnly size F Byte (read address) := by
  intro m hm
  cases hcell : m.memory.cell? address.toNat with
  | some v =>
    rw [read_ok hcell]
    exact .of_ok hm
  | none =>
    rw [read_error hcell]
    exact .of_error hm (fails_of_missing hmissing hm (Memory.size_le_of_cell?_eq_none hcell))

theorem failsOnly_write (address : Word) (v : Byte) : FailsOnly size F Unit (write address v) := by
  intro m hm
  by_cases hcell : address.toNat < m.memory.size
  · rw [write_ok hcell]
    exact .of_ok ((Memory.size_put ..).trans hm)
  · rw [write_error hcell]
    exact .of_error hm (fails_of_missing hmissing hm (Nat.le_of_not_lt hcell))

/-- **Not to fail but for a missing cell** is a plain property. -/
theorem failsOnly_plain : Plain (FailsOnly size F) where
  pure _ _ hm := .of_ok hm
  bind := FailsOnly.bind
  ask _ _ := failsOnly_ask _
  update f _ _ := failsOnly_updateRegisters f
  print _ _ hm := .of_ok hm
  read := failsOnly_read hmissing
  write := failsOnly_write hmissing

variable (hmisuse : ∀ misuse pointer, misuse ≠ .outOfRange → F (.stackFault misuse pointer))

include hmisuse

theorem failsOnly_push (v : Byte) : FailsOnly size F Unit (push v) := by
  intro m hm
  obtain ⟨f, hfree, heq⟩ | ⟨cell, -, hcell, heq⟩ | ⟨cell, -, -, heq⟩ := push_cases v m
  · obtain rfl := Stack.eq_of_free_eq_error hfree
    rw [heq]
    exact .of_error hm (hmisuse .overflow _ (by decide))
  · rw [heq]
    exact .of_error hm (fails_of_missing hmissing hm (Nat.le_of_not_lt hcell))
  · rw [heq]
    exact .of_ok ((Memory.size_put ..).trans hm)

theorem failsOnly_pop : FailsOnly size F Byte pop := by
  intro m hm
  obtain ⟨f, hused, heq⟩ | ⟨cell, -, hcell, heq⟩ | ⟨cell, v, -, -, heq⟩ := pop_cases m
  · obtain rfl := Stack.eq_of_used_eq_error hused
    rw [heq]
    exact .of_error hm (hmisuse .underflow _ (by decide))
  · rw [heq]
    exact .of_error hm (fails_of_missing hmissing hm (Memory.size_le_of_cell?_eq_none hcell))
  · rw [heq]
    exact .of_ok ((Memory.size_put ..).trans hm)

/-- An operation that uses the stack fails by misusing it, or for a missing cell. -/
theorem failsOnly_perform_of_usesStack {operation : Operation} {mode : Mode} {first second : Byte}
    {place : Place} (huses : operation.usesStack = true) :
    FailsOnly size F Unit (perform operation mode first second place) := by
  have hpush := failsOnly_push hmissing hmisuse
  have hpop := failsOnly_pop hmissing hmisuse
  cases operation with
  | call =>
    exact (failsOnly_ask _).bind fun _ => (hpush _).bind fun _ => (hpush _).bind fun _ =>
      failsOnly_setPC _
  | comeBack => exact hpop.bind fun _ => hpop.bind fun _ => failsOnly_setPC _
  | pushStatus | pushA => exact (failsOnly_ask _).bind fun _ => hpush _
  | popStatus | popA => exact hpop.bind fun _ => failsOnly_updateRegisters _
  | _ => exact nomatch huses

end

/-! ### All operations -/

/-- **An operation fails only with the faults that are open to it.** -/
theorem failsOnly_perform (size : Nat) (operation : Operation) (mode : Mode) (first second : Byte)
    (place : Place) : FailsOnly size (operation.CanFail first second size) Unit
      (perform operation mode first second place) := by
  have hmissing : ∀ address : Word, size ≤ address.toNat →
      operation.CanFail first second size (.outOfBounds address.toNat size) := fun _ h => .missing h
  have hplain := failsOnly_plain hmissing
  cases huses : operation.usesStack with
  | true => exact failsOnly_perform_of_usesStack hmissing (fun _ _ h => .misuse huses h) huses
  | false =>
    exact hplain.perform_of_usesStack_eq_false (fun f _ => failsOnly_updateRegisters f) huses
      fun hmove => hplain.move fun index hindex hnone =>
        failsOnly_fault (.register hmove hindex hnone)

/-! ### Steps -/

/-- **A step that has found its instruction** fails only with the faults that are open to its
operation. -/
theorem canFail_of_step {m : Machine} {t : Triple} {form : Form} {fault : Fault}
    (ht : m.Fetches t) (hform : Form.ofOpcode? t.opcode = some form)
    (h : (step m).result = .error fault) :
    form.mnemonic.operation.CanFail t.first t.second m.memory.size fault := by
  obtain ⟨-, hfails⟩ := failsOnly_perform m.memory.size form.mnemonic.operation form.mode t.first
    t.second (form.mode.place m.registers t.first t.second) m rfl
  rw [result_step ht hform] at h
  exact hfails fault h

end Action

/-- **An instruction is always fetched** from a memory that spans the address space. -/
theorem Machine.exists_fetches {m : Machine} (hsize : addressSpace ≤ m.memory.size) :
    ∃ t, m.Fetches t := by
  have hcell : ∀ address : Word, ∃ v, m.memory.cell? address.toNat = some v := fun address =>
    Option.isSome_iff_exists.1 (Memory.isSome_cell?_iff.2
      (Nat.lt_of_lt_of_le address.toNat_lt hsize))
  obtain ⟨opcode, hopcode⟩ := hcell m.registers.pc
  obtain ⟨first, hfirst⟩ := hcell (m.registers.pc + 1)
  obtain ⟨second, hsecond⟩ := hcell (m.registers.pc + 2)
  exact ⟨⟨opcode, first, second⟩, hopcode, hfirst, hsecond⟩

end EightBit
