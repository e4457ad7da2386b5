import EightBit.Assembly.Program
import EightBit.Proofs.Machine.Commands
import EightBit.Proofs.Machine.Frame

/-!
# The reserved flag that is set from the start

One of the reserved flags, the one of weight 32, is set in a new machine and no
arithmetic touches it. It is not hardwired, though: the status register is popped as a
whole, and a byte that stands on the stack can be any byte at all.

So the flag says nothing but what was last put into the status register as a whole.
`EightBit.Machine.statuses` lists these bytes, those that instructions pop among them,
and the main statement, `EightBit.reserved32_after`, is that the flag is always that of
the last of them.
-/

namespace EightBit

namespace Machine

/-- The byte on top of the stack, if there is one and it is in memory. -/
def topByte? (m : Machine) : Option Byte :=
  match m.stack.used with
  | .ok cell => m.memory.cell? cell.toNat
  | .error _ => none

/-- **The byte that a step pops into the status register**, if it pops one. -/
def status? (m : Machine) : Option Byte :=
  if m.operation? = some .popStatus then m.topByte? else none

end Machine

/-! ### One step -/

namespace Action

variable {m : Machine}

/-- What is left of the flags is what the operation has left of them. -/
theorem flags_step {t : Triple} {form : Form} (ht : m.Fetches t)
    (hform : Form.ofOpcode? t.opcode = some form) :
    (step m).machine.registers.p = (perform form.mnemonic.operation form.mode t.first t.second
      (form.mode.place m.registers t.first t.second) m).machine.registers.p := by
  obtain h | h := machine_step ht hform <;> rw [h]
  rfl

/-- Popping the status register sets all flags, if there is a byte to be popped. -/
theorem flags_perform_popStatus {mode : Mode} {first second : Byte} {place : Place} :
    (perform .popStatus mode first second place m).machine.registers.p =
      (m.topByte?.map Flags.ofByte).getD m.registers.p := by
  rw [perform, Machine.topByte?]
  obtain ⟨f, hused, h⟩ | ⟨cell, hused, hcell, h⟩ | ⟨cell, v, hused, hcell, h⟩ := pop_cases m
  · rw [bind_error h, hused]
    rfl
  · rw [bind_error h, hused]
    simp only [hcell]
    rfl
  · rw [bind_ok h, hused]
    simp only [hcell]
    rfl

/-- No mnemonic stands for changing the flag, other than by changing them all. -/
theorem reserved32_notMem_flags (mnemonic : Mnemonic) (place : Place)
    (h : mnemonic.operation ≠ .popStatus) :
    Flag.reserved32 ∉ mnemonic.operation.flags place := by
  cases mnemonic with
  | pos => exact absurd rfl h
  | rol | ror =>
    rw [Mnemonic.operation, Operation.flags]
    split <;> decide
  | _ => simp [Mnemonic.operation, Operation.flags]

/-- **A step leaves the flag alone**, unless it pops the status register. -/
theorem reserved32_step (m : Machine) :
    (step m).machine.registers.p.reserved32 =
      (m.status?.map fun v => (Flags.ofByte v).reserved32).getD m.registers.p.reserved32 := by
  cases hoperation : m.operation? with
  | none =>
    rw [machine_step_of_operation?_eq_none hoperation, Machine.status?, hoperation]
    rfl
  | some operation =>
    obtain ⟨t, form, ht, hform, rfl⟩ := Machine.operation?_eq_some_iff.1 hoperation
    rw [flags_step ht hform, Machine.status?, hoperation]
    by_cases hpop : form.mnemonic.operation = .popStatus
    · rw [hpop, if_pos rfl, flags_perform_popStatus]
      cases m.topByte? <;> rfl
    · rw [if_neg fun h => hpop (Option.some.inj h)]
      exact keeps_flag (reserved32_notMem_flags form.mnemonic _ hpop) m

end Action

/-! ### Many steps -/

/-- The last entry of two lists is that of the second one, if it has any. -/
theorem getLastD_append {α : Type} (l l' : List α) (a : α) :
    (l ++ l').getLastD a = l'.getLastD (l.getLastD a) := by
  induction l generalizing a with
  | nil => rfl
  | cons b l ih => rw [List.cons_append, List.getLastD_cons, List.getLastD_cons, ih]

/-- **Passing through machines** leaves the flag as the last status byte popped has it. -/
theorem Machine.Passes.reserved32_eq {m m' : Machine} {ms : List Machine} (h : Passes m ms m') :
    m'.registers.p.reserved32 =
      ((ms.filterMap status?).map fun v => (Flags.ofByte v).reserved32).getLastD
        m.registers.p.reserved32 := by
  induction h with
  | nil => rfl
  | @cons m m' ms _ _ ih =>
    rw [ih, Action.reserved32_step]
    cases hstatus : m.status? with
    | none => rw [List.filterMap_cons_none hstatus]; rfl
    | some v => rw [List.filterMap_cons_some hstatus, List.map_cons, List.getLastD_cons]; rfl

/-! ### Commands -/

/-- The bytes that a request puts into the status register as a whole, in order. -/
def Machine.Request.statuses : Request → Machine → List Byte
  | reset, _ => [Flags.initial.toByte]
  | setStatus status, _ => [status]
  | request, m => (request.visits m).filterMap status?

/-- The bytes that a command puts into the status register as a whole, in order. -/
def Command.statuses : Command → Machine → List Byte
  | request asked, m => asked.statuses m
  | changeMemory _, _ => []

/-- **The bytes that some commands put into the status register** as a whole, in
order. -/
def Machine.statuses : Machine → List Command → List Byte
  | _, [] => []
  | m, command :: commands => command.statuses m ++ (command.perform m).statuses commands

/-- A run leaves the flag as the last status byte popped on its way has it. -/
theorem Machine.reserved32_execute (suspend : Suspension) (budget : Nat) (address : Word)
    (m : Machine) :
    (m.execute suspend budget address).machine.registers.p.reserved32 =
      (((m.executeVisits suspend budget address).filterMap status?).map fun v =>
        (Flags.ofByte v).reserved32).getLastD m.registers.p.reserved32 := by
  obtain ⟨m', state, hpasses, hmachine⟩ := exists_passes_execute suspend budget address m
  -- The start has not touched the flags.
  have hstart : (Action.start address m).machine.registers.p = m.registers.p := by
    obtain h | ⟨first, h⟩ := Action.machine_start address m <;> rw [h]
  rw [hmachine, inState, hpasses.reserved32_eq, hstart]

theorem Machine.Request.reserved32_perform (request : Request) (m : Machine) :
    (request.perform m).machine.registers.p.reserved32 =
      ((request.statuses m).map fun v => (Flags.ofByte v).reserved32).getLastD
        m.registers.p.reserved32 := by
  cases request with
  | load | write | clear =>
    rw [perform, registers_store]
    rfl
  | execute suspend budget address => exact m.reserved32_execute suspend budget address
  | run budget => exact m.reserved32_execute .never budget _
  | step =>
    rw [perform, ofOutcome, Action.reserved32_step]
    cases hstatus : m.status? with
    | none =>
      change _ = (([m].filterMap status?).map _).getLastD _
      rw [List.filterMap_cons_none hstatus]
      rfl
    | some v =>
      change _ = (([m].filterMap status?).map _).getLastD _
      rw [List.filterMap_cons_some hstatus]
      rfl
  | setRegister register value => cases register <;> rfl
  | peek address =>
    rw [perform, Action.machine_peek]
    rfl
  | reset | setStatus status | setCounter address | slice start stop => rfl

theorem Command.reserved32_perform (command : Command) (m : Machine) :
    (command.perform m).registers.p.reserved32 =
      ((command.statuses m).map fun v => (Flags.ofByte v).reserved32).getLastD
        m.registers.p.reserved32 := by
  cases command with
  | request asked => exact asked.reserved32_perform m
  | changeMemory change => rfl

theorem Machine.reserved32_after_eq (commands : List Command) (m : Machine) :
    (m.after commands).registers.p.reserved32 =
      ((m.statuses commands).map fun v => (Flags.ofByte v).reserved32).getLastD
        m.registers.p.reserved32 := by
  induction commands generalizing m with
  | nil => rfl
  | cons command commands ih =>
    rw [after, ih, command.reserved32_perform, statuses, List.map_append, getLastD_append]

/-- **The flag is that of the last byte that was put into the status register as a
whole**, whatever has been done to a machine since it was new: only a status popped from
the stack, an override or a reset touches it, and as long as there has been none of
these it is set. -/
theorem reserved32_after {layout : Layout} {memorySize : Nat} {m : Machine}
    (h : Machine.new layout memorySize = .ok m) (commands : List Command) :
    (m.after commands).registers.p.reserved32 =
      ((m.statuses commands).map fun v => (Flags.ofByte v).reserved32).getLastD true := by
  obtain ⟨-, rfl⟩ := Machine.new_eq_ok_iff.1 h
  exact Machine.reserved32_after_eq commands _

/-- A small machine, with the first cells for programs and the last two for its
stack. -/
def Layout.small : Layout where
  programMemory := ⟨0, 16⟩
  stack := ⟨16, 18⟩

/-- Three instructions are enough to clear the flag: A is loaded with zero, pushed, and
popped into the status register. -/
theorem reserved32_after_popping_zero :
    assemble .standard "LDA #0\nPHA\nPOS".toList =
        .ok (image [⟨0x04, 0, 0⟩, ⟨0x2B, 0, 0⟩, ⟨0x2A, 0, 0⟩]) ∧
      ∃ m, Machine.new .small 18 = .ok m ∧ ∃ commands : List Command,
        commands = [.changeMemory fun memory =>
          memory.putAll 0 (image [⟨0x04, 0, 0⟩, ⟨0x2B, 0, 0⟩, ⟨0x2A, 0, 0⟩]),
          .request (.execute .never 3 0)] ∧
        (m.after commands).state = .halted ∧ m.statuses commands = [0] ∧
        (m.after commands).registers.p.reserved32 = false := by
  refine ⟨by decide, _, rfl, _, rfl, by decide +kernel, by decide +kernel, ?_⟩
  rw [@reserved32_after .small 18 _ rfl]
  decide +kernel

end EightBit
