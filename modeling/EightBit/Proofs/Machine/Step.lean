import EightBit.Image
import EightBit.Machine.Step
import EightBit.Proofs.Machine.Success

/-!
# What a step is made of

A step is three things one after the other: the three bytes at the program counter
are fetched, their operation is performed, and the program counter moves on. The
first and the last of these are the same for all instructions, so they are dealt with
here, and every other file is about the operation alone.

`EightBit.Machine.Fetches` says which instruction stands at the program counter; a
step that finds one is what performing it makes of it
(`EightBit.Action.step_eq_ok_iff`), and what can be watched of the step is what can be
watched of these three things (`EightBit.Action.events_step`). A step that finds none to
perform is stopped before it has changed anything (`EightBit.Action.step_cases`).
-/

namespace EightBit

namespace Machine

/-- **The instruction at the program counter.** Its second and third byte stand where
the second and the third address past the program counter are, wrapping around at the
end of the address space. -/
structure Fetches (m : Machine) (t : Triple) : Prop where
  opcode : m.memory.cell? m.registers.pc.toNat = some t.opcode
  first : m.memory.cell? (m.registers.pc + 1).toNat = some t.first
  second : m.memory.cell? (m.registers.pc + 2).toNat = some t.second

/-- Only one instruction stands at the program counter. -/
theorem Fetches.unique {m : Machine} {t t' : Triple} (h : m.Fetches t) (h' : m.Fetches t') :
    t = t' := by
  obtain ⟨opcode, first, second⟩ := t
  obtain ⟨opcode', first', second'⟩ := t'
  obtain rfl := Option.some.inj (h.opcode.symm.trans h'.opcode)
  obtain rfl := Option.some.inj (h.first.symm.trans h'.first)
  obtain rfl := Option.some.inj (h.second.symm.trans h'.second)
  rfl

/-- The instruction at the program counter, if all of it is in memory. -/
def fetched? (m : Machine) : Option Triple := do
  let opcode ← m.memory.cell? m.registers.pc.toNat
  let first ← m.memory.cell? (m.registers.pc + 1).toNat
  let second ← m.memory.cell? (m.registers.pc + 2).toNat
  return ⟨opcode, first, second⟩

theorem fetched?_eq_some_iff {m : Machine} {t : Triple} : m.fetched? = some t ↔ m.Fetches t := by
  simp only [fetched?, Option.bind_eq_bind, Option.bind_eq_some_iff, Option.pure_def,
    Option.some.injEq]
  constructor
  · rintro ⟨opcode, hopcode, first, hfirst, second, hsecond, rfl⟩
    exact ⟨hopcode, hfirst, hsecond⟩
  · intro h
    exact ⟨t.opcode, h.opcode, t.first, h.first, t.second, h.second, rfl⟩

/-- **The operation that a step performs**, if it gets so far. -/
def operation? (m : Machine) : Option Operation := do
  let t ← m.fetched?
  let form ← Form.ofOpcode? t.opcode
  return form.mnemonic.operation

theorem operation?_eq_some_iff {m : Machine} {operation : Operation} :
    m.operation? = some operation ↔
      ∃ t form, m.Fetches t ∧ Form.ofOpcode? t.opcode = some form ∧
        form.mnemonic.operation = operation := by
  simp only [operation?, Option.bind_eq_bind, Option.bind_eq_some_iff, Option.pure_def,
    Option.some.injEq, fetched?_eq_some_iff]
  constructor
  · rintro ⟨t, ht, form, hform, hoperation⟩
    exact ⟨t, form, ht, hform, hoperation⟩
  · rintro ⟨t, form, ht, hform, hoperation⟩
    exact ⟨t, ht, form, hform, hoperation⟩

/-- **What can be watched of the operation of a step**, if it gets so far. -/
def dataEvents (m : Machine) : List Event :=
  match m.fetched? with
  | none => []
  | some t =>
    match Form.ofOpcode? t.opcode with
    | none => []
    | some form => (Action.perform form.mnemonic.operation form.mode t.first t.second
        (form.mode.place m.registers t.first t.second) m).events

theorem dataEvents_eq {m : Machine} {t : Triple} {form : Form} (ht : m.Fetches t)
    (hform : Form.ofOpcode? t.opcode = some form) :
    m.dataEvents = (Action.perform form.mnemonic.operation form.mode t.first t.second
      (form.mode.place m.registers t.first t.second) m).events := by
  rw [dataEvents, fetched?_eq_some_iff.2 ht]
  dsimp only
  rw [hform]

/-- Where there is no form there is nothing to be watched. -/
theorem dataEvents_of_illegal {m : Machine} {t : Triple} (ht : m.Fetches t)
    (hform : Form.ofOpcode? t.opcode = none) : m.dataEvents = [] := by
  rw [dataEvents, fetched?_eq_some_iff.2 ht]
  dsimp only
  rw [hform]

/-- What can be watched while an instruction is fetched. -/
def fetchEvents (m : Machine) (t : Triple) : List Event :=
  [.read m.registers.pc (some t.opcode), .read (m.registers.pc + 1) (some t.first),
    .read (m.registers.pc + 2) (some t.second)]

/-- The machine with its program counter past the instruction. -/
def advanced (m : Machine) : Machine :=
  { m with registers := { m.registers with pc := m.registers.pc + 3 } }

@[simp] theorem pc_advanced (m : Machine) : m.advanced.registers.pc = m.registers.pc + 3 := rfl

@[simp] theorem memory_advanced (m : Machine) : m.advanced.memory = m.memory := rfl

@[simp] theorem stack_advanced (m : Machine) : m.advanced.stack = m.stack := rfl

end Machine

/-- **Some events are silent** if nobody is told of them: nothing is printed, and neither the
program counter nor the stack pointer is reported. -/
def Silent (es : List Event) : Prop :=
  ∀ e ∈ es, e.character? = none ∧ e.pc? = none ∧ e.pointer? = none

namespace Silent

variable {es es' : List Event} {address : Word}

@[simp] theorem nil : Silent [] :=
  List.forall_mem_nil _

@[simp] theorem append_iff : Silent (es ++ es') ↔ Silent es ∧ Silent es' :=
  List.forall_mem_append

@[simp] theorem read_cons_iff {value : Option Byte} :
    Silent (.read address value :: es) ↔ Silent es := by
  simp [Silent, Event.character?, Event.pc?, Event.pointer?]

@[simp] theorem write_cons_iff {value : Byte} {done : Bool} :
    Silent (.write address value done :: es) ↔ Silent es := by
  simp [Silent, Event.character?, Event.pc?, Event.pointer?]

@[simp] theorem fetchEvents (m : Machine) (t : Triple) : Silent (m.fetchEvents t) := by
  simp [Machine.fetchEvents]

end Silent

/-- **A stop**: an outcome with a fault that leaves the machine as it was, and of which nobody
is told. -/
structure Outcome.Stopped {α : Type} (fault : Fault) (m : Machine) (o : Outcome α) : Prop where
  result : o.result = .error fault
  machine : o.machine = m
  silent : Silent o.events

namespace Action

variable {m m' : Machine} {es : List Event}

/-- Moving on always succeeds. -/
theorem advance_eq (m : Machine) :
    advance m = ⟨.ok (), m.advanced, [.advance (m.registers.pc + 3)]⟩ := by
  rw [advance, pc, ask_bind]
  rfl

/-- **A form that is decoded is performed**: the other arm of the dispatch is dead. -/
theorem dispatch_eq {form : Form} {opcode : Byte} (h : Form.ofOpcode? opcode = some form)
    (first second : Byte) (address : Word) (m : Machine) :
    dispatch form opcode first second address m =
      perform form.mnemonic.operation form.mode first second
        (form.mode.place m.registers first second) m := by
  rw [dispatch, if_pos (Form.mem_performedModes h), ask_bind]

/-- Whatever an instruction does to the machine comes between fetching it and moving
on. -/
theorem step_eq {t : Triple} {form : Form} (h : m.Fetches t)
    (hform : Form.ofOpcode? t.opcode = some form) :
    step m = ⟨((perform form.mnemonic.operation form.mode t.first t.second
          (form.mode.place m.registers t.first t.second) >>= fun _ => advance) m).result,
        ((perform form.mnemonic.operation form.mode t.first t.second
          (form.mode.place m.registers t.first t.second) >>= fun _ => advance) m).machine,
        m.fetchEvents t ++ ((perform form.mnemonic.operation form.mode t.first t.second
          (form.mode.place m.registers t.first t.second) >>= fun _ => advance) m).events⟩ := by
  rw [step, pc, ask_bind, bind_ok (read_ok h.opcode), bind_ok (read_ok h.first),
    bind_ok (read_ok h.second)]
  simp only [hform]
  rw [bind_eq_of_eq (dispatch_eq hform t.first t.second m.registers.pc m)]
  rfl

/-- **What a step leaves behind** is what its operation does, with the program counter moved
on unless there was a fault. -/
theorem machine_step {t : Triple} {form : Form} (h : m.Fetches t)
    (hform : Form.ofOpcode? t.opcode = some form) :
    (step m).machine = (perform form.mnemonic.operation form.mode t.first t.second
        (form.mode.place m.registers t.first t.second) m).machine ∨
      (step m).machine = (perform form.mnemonic.operation form.mode t.first t.second
        (form.mode.place m.registers t.first t.second) m).machine.advanced := by
  rw [step_eq h hform]
  rcases hperform : perform form.mnemonic.operation form.mode t.first t.second
    (form.mode.place m.registers t.first t.second) m with ⟨fault | _, m₁, es⟩
  · rw [bind_error hperform]
    exact Or.inl rfl
  · rw [bind_ok hperform, advance_eq]
    exact Or.inr rfl

/-- Moving on has no bearing on memory. -/
theorem memory_step_eq {t : Triple} {form : Form} (h : m.Fetches t)
    (hform : Form.ofOpcode? t.opcode = some form) :
    (step m).machine.memory = (perform form.mnemonic.operation form.mode t.first t.second
      (form.mode.place m.registers t.first t.second) m).machine.memory := by
  rcases machine_step h hform with heq | heq
  · rw [heq]
  · rw [heq, Machine.memory_advanced]

/-- Moving on has no bearing on the stack. -/
theorem stack_step_eq {t : Triple} {form : Form} (h : m.Fetches t)
    (hform : Form.ofOpcode? t.opcode = some form) :
    (step m).machine.stack = (perform form.mnemonic.operation form.mode t.first t.second
      (form.mode.place m.registers t.first t.second) m).machine.stack := by
  rcases machine_step h hform with heq | heq
  · rw [heq]
  · rw [heq, Machine.stack_advanced]

/-- **A step fails as its operation does**, and leaves what this one leaves. -/
theorem step_of_perform_error {t : Triple} {form : Form} {fault : Fault} (h : m.Fetches t)
    (hform : Form.ofOpcode? t.opcode = some form)
    (hperform : perform form.mnemonic.operation form.mode t.first t.second
      (form.mode.place m.registers t.first t.second) m = ⟨.error fault, m', es⟩) :
    step m = ⟨.error fault, m', m.fetchEvents t ++ es⟩ := by
  rw [step_eq h hform, bind_error hperform]

/-- Moving on does not fail, so all depends on the operation. -/
theorem result_step {t : Triple} {form : Form} (h : m.Fetches t)
    (hform : Form.ofOpcode? t.opcode = some form) :
    (step m).result = (perform form.mnemonic.operation form.mode t.first t.second
      (form.mode.place m.registers t.first t.second) m).result := by
  rw [step_eq h hform]
  rcases hperform : perform form.mnemonic.operation form.mode t.first t.second
    (form.mode.place m.registers t.first t.second) m with ⟨fault | _, m₁, es⟩
  · rw [bind_error hperform]
  · rw [bind_ok hperform, advance_eq]

/-- **What can be watched of a step**: how the instruction is fetched, how its operation
is performed, and where the program counter moves unless there was a fault. -/
theorem events_step {t : Triple} {form : Form} (h : m.Fetches t)
    (hform : Form.ofOpcode? t.opcode = some form) :
    (step m).events = m.fetchEvents t ++ m.dataEvents ++
      match (step m).result with
      | .ok _ => [.advance (step m).machine.registers.pc]
      | .error _ => [] := by
  rw [step_eq h hform, Machine.dataEvents_eq h hform]
  rcases hperform : perform form.mnemonic.operation form.mode t.first t.second
    (form.mode.place m.registers t.first t.second) m with ⟨fault | _, m₁, data⟩
  · rw [bind_error hperform]
    exact (List.append_nil _).symm
  · rw [bind_ok hperform, advance_eq]
    exact (List.append_assoc _ _ _).symm

/-! Fetching can fail at each of the three bytes, and then there has to be a form. -/

section

variable {opcode first : Byte} {fault : Fault}

theorem step_of_opcode_missing (h : read m.registers.pc m = ⟨.error fault, m, es⟩) :
    step m = ⟨.error fault, m, es⟩ := by
  rw [step, pc, ask_bind, bind_error h]

theorem step_of_first_missing (hopcode : m.memory.cell? m.registers.pc.toNat = some opcode)
    (h : read (m.registers.pc + 1) m = ⟨.error fault, m, es⟩) :
    step m = ⟨.error fault, m, .read m.registers.pc (some opcode) :: es⟩ := by
  rw [step, pc, ask_bind, bind_ok (read_ok hopcode), bind_error h]
  rfl

theorem step_of_second_missing (hopcode : m.memory.cell? m.registers.pc.toNat = some opcode)
    (hfirst : m.memory.cell? (m.registers.pc + 1).toNat = some first)
    (h : read (m.registers.pc + 2) m = ⟨.error fault, m, es⟩) :
    step m = ⟨.error fault, m, .read m.registers.pc (some opcode) ::
      .read (m.registers.pc + 1) (some first) :: es⟩ := by
  rw [step, pc, ask_bind, bind_ok (read_ok hopcode), bind_ok (read_ok hfirst), bind_error h]
  rfl

theorem step_of_illegal {t : Triple} (ht : m.Fetches t) (hform : Form.ofOpcode? t.opcode = none) :
    step m = ⟨.error (.illegalInstruction t.opcode m.registers.pc), m, m.fetchEvents t⟩ := by
  rw [step, pc, ask_bind, bind_ok (read_ok ht.opcode), bind_ok (read_ok ht.first),
    bind_ok (read_ok ht.second)]
  simp only [hform]
  rfl

end

/-- **What a step can find** at the program counter: a byte is missing, or the first one is no
opcode, or there is an instruction to perform. In the first two cases the step stops. -/
theorem step_cases (m : Machine) :
    (∃ k ∈ ([0, 1, 2] : List Word), m.memory.cell? (m.registers.pc + k).toNat = none ∧
      (step m).Stopped (.outOfBounds (m.registers.pc + k).toNat m.memory.size) m) ∨
    (∃ t, m.Fetches t ∧ Form.ofOpcode? t.opcode = none ∧
      (step m).Stopped (.illegalInstruction t.opcode m.registers.pc) m) ∨
    ∃ t form, m.Fetches t ∧ Form.ofOpcode? t.opcode = some form := by
  rcases hopcode : m.memory.cell? m.registers.pc.toNat with _ | opcode
  · refine Or.inl ⟨0, by decide, ?_⟩
    rw [UInt16.add_zero, step_of_opcode_missing (read_error hopcode)]
    exact ⟨hopcode, rfl, rfl, by simp⟩
  rcases hfirst : m.memory.cell? (m.registers.pc + 1).toNat with _ | first
  · refine Or.inl ⟨1, by decide, hfirst, ?_⟩
    rw [step_of_first_missing hopcode (read_error hfirst)]
    exact ⟨rfl, rfl, by simp⟩
  rcases hsecond : m.memory.cell? (m.registers.pc + 2).toNat with _ | second
  · refine Or.inl ⟨2, by decide, hsecond, ?_⟩
    rw [step_of_second_missing hopcode hfirst (read_error hsecond)]
    exact ⟨rfl, rfl, by simp⟩
  have ht : m.Fetches ⟨opcode, first, second⟩ := ⟨hopcode, hfirst, hsecond⟩
  rcases hform : Form.ofOpcode? opcode with _ | form
  · refine Or.inr (Or.inl ⟨_, ht, hform, ?_⟩)
    rw [step_of_illegal ht hform]
    exact ⟨rfl, rfl, by simp⟩
  · exact Or.inr (Or.inr ⟨_, form, ht, hform⟩)

/-- **A step that finds no operation to perform is stopped.** -/
theorem stopped_step_of_operation?_eq_none (h : m.operation? = none) :
    ∃ fault, (step m).Stopped fault m := by
  rcases step_cases m with ⟨_, -, -, hstop⟩ | ⟨_, -, -, hstop⟩ | ⟨t, form, ht, hform⟩
  · exact ⟨_, hstop⟩
  · exact ⟨_, hstop⟩
  · -- An instruction that decodes has an operation.
    have hsome := Machine.operation?_eq_some_iff.2 ⟨t, form, ht, hform, rfl⟩
    exact nomatch h.symm.trans hsome

theorem machine_step_of_operation?_eq_none (h : m.operation? = none) : (step m).machine = m := by
  obtain ⟨fault, hstop⟩ := stopped_step_of_operation?_eq_none h
  exact hstop.machine

/-- **A step succeeds** exactly if there is an instruction, it has a form, and what its
operation does succeeds. -/
theorem step_eq_ok_iff :
    step m = ⟨.ok (), m', es⟩ ↔
      ∃ t form m₁ data, m.Fetches t ∧ Form.ofOpcode? t.opcode = some form ∧
        perform form.mnemonic.operation form.mode t.first t.second
          (form.mode.place m.registers t.first t.second) m = ⟨.ok (), m₁, data⟩ ∧
        m' = m₁.advanced ∧
        es = m.fetchEvents t ++ data ++ [.advance m₁.advanced.registers.pc] := by
  constructor
  · intro h
    rw [step, pc, ask_bind] at h
    obtain ⟨opcode, _, _, es₁, hread₁, h₁, hes⟩ := bind_eq_ok_iff.1 h
    obtain ⟨hopcode, rfl, rfl⟩ := read_eq_ok_iff.1 hread₁
    obtain ⟨first, _, _, es₂, hread₂, h₂, hes₁⟩ := bind_eq_ok_iff.1 h₁
    obtain ⟨hfirst, rfl, rfl⟩ := read_eq_ok_iff.1 hread₂
    obtain ⟨second, _, _, es₃, hread₃, h₃, hes₂⟩ := bind_eq_ok_iff.1 h₂
    obtain ⟨hsecond, rfl, rfl⟩ := read_eq_ok_iff.1 hread₃
    cases hform : Form.ofOpcode? opcode with
    | none =>
      rw [hform] at h₃
      exact absurd h₃ fault_ne_ok
    | some form =>
      simp only [hform] at h₃
      obtain ⟨_, m₁, data, es₄, hperform, h₄, hes₃⟩ := bind_eq_ok_iff.1 h₃
      rw [dispatch_eq hform] at hperform
      rw [advance_eq] at h₄
      cases h₄
      -- Fetching has read three cells and changed nothing.
      refine ⟨⟨opcode, first, second⟩, form, m₁, data, ⟨hopcode, hfirst, hsecond⟩, hform,
        hperform, rfl, ?_⟩
      rw [hes, hes₁, hes₂, hes₃]
      rfl
  · rintro ⟨t, form, m₁, data, ht, hform, hperform, rfl, rfl⟩
    rw [step_eq ht hform, bind_ok hperform, advance_eq, List.append_assoc]
    rfl

/-- The instruction at the program counter is the one that a step performs. -/
theorem step_eq_ok_iff_of_fetches {t : Triple} (ht : m.Fetches t) :
    step m = ⟨.ok (), m', es⟩ ↔
      ∃ form m₁ data, Form.ofOpcode? t.opcode = some form ∧
        perform form.mnemonic.operation form.mode t.first t.second
          (form.mode.place m.registers t.first t.second) m = ⟨.ok (), m₁, data⟩ ∧
        m' = m₁.advanced ∧
        es = m.fetchEvents t ++ data ++ [.advance m₁.advanced.registers.pc] := by
  rw [step_eq_ok_iff]
  constructor
  · rintro ⟨t', form, m₁, data, ht', h⟩
    obtain rfl := ht.unique ht'
    exact ⟨form, m₁, data, h⟩
  · rintro ⟨form, m₁, data, h⟩
    exact ⟨t, form, m₁, data, ht, h⟩

end Action

end EightBit
