import EightBit.Proofs.Machine.Loading
import EightBit.Proofs.Machine.Visits

/-!
# Requests

Whoever owns a machine can load a program and have it run, have single instructions performed,
reset the machine, override its registers other than SP, and look into it: these are the
requests (`EightBit.Machine.Request`). What comes of one is an answer, the machine that it leaves
behind, and what can be watched of it (`EightBit.Machine.Response`); a request that takes steps
takes them from the machines on its way (`EightBit.Machine.Request.visits`).

A property that survives all requests comes down to five conditions, of which only two are about
the machine at work (`EightBit.Persistent`, `EightBit.Persistent.perform`). The first four do not
let memory be changed from outside, and are enough for runs (`EightBit.Enduring`).
-/

namespace EightBit

/-- **A request** to a machine. -/
inductive Machine.Request where
  /-- Load a run of bytes from an address on. -/
  | load (start : Nat) (values : List Byte)
  /-- Write a byte to a cell of memory. -/
  | write (address : Word) (value : Byte)
  /-- Clear memory, and nothing else. -/
  | clear
  /-- Run the program whose header is at an address, for a number of polls at most. -/
  | execute (suspend : Suspension) (budget : Nat) (address : Word)
  /-- Run the program at the start of program memory, for a number of polls at most. -/
  | run (budget : Nat)
  /-- Perform the instruction at the program counter. -/
  | step
  /-- Reset the machine. -/
  | reset
  /-- Override a general register. -/
  | setRegister (register : Register) (value : Byte)
  /-- Override the status register. -/
  | setStatus (status : Byte)
  /-- Override the program counter. -/
  | setCounter (address : Word)
  /-- Look at a cell of the stack. -/
  | peek (address : Word)
  /-- Look at a run of bytes in memory. -/
  | slice (start stop : Nat)

/-- **The answer** to a request. -/
inductive Machine.Answer where
  /-- It has been done, or why not. -/
  | done (result : Except Fault Unit)
  /-- How a run has ended, and the program counters of all polls. -/
  | ended (ending : Ending) (polls : List Word)
  /-- What has been looked at. -/
  | seen (result : Except Fault (List Byte))

/-- **What comes of a request**: the answer to it, the machine it leaves behind, and what can
be watched of it. -/
structure Machine.Response where
  answer : Answer
  machine : Machine
  events : List Event

namespace Machine.Request

/-- A request that changes memory from outside, unless it cannot be done. -/
def store (change : Except Fault Memory) (m : Machine) : Response :=
  match change with
  | .ok memory => ⟨.done (.ok ()), { m with memory }, []⟩
  | .error fault => ⟨.done (.error fault), m, []⟩

/-- A request to override registers. -/
def override (registers : Registers) (m : Machine) : Response :=
  ⟨.done (.ok ()), { m with registers }, []⟩

/-- What a run answers. -/
def ofRun (run : Run) : Response :=
  ⟨.ended run.ending run.polls, run.machine, run.events⟩

/-- What an action answers. -/
def ofOutcome (outcome : Outcome Unit) : Response :=
  ⟨.done outcome.result, outcome.machine, outcome.events⟩

/-- **What comes of a request** to a machine. -/
def perform : Request → Machine → Response
  | load start values, m => store (m.memory.load start values) m
  | write address value, m => store (m.memory.write address value) m
  | clear, m => store (.ok m.memory.clear) m
  | execute suspend budget address, m => ofRun (m.execute suspend budget address)
  | run budget, m => ofRun (m.run budget)
  | step, m => ofOutcome (Action.step m)
  | reset, m => ofOutcome (Action.reset m)
  | setRegister register value, m => override (m.registers.set register value) m
  | setStatus status, m => override { m.registers with p := .ofByte status } m
  | setCounter address, m => override { m.registers with pc := address } m
  | peek address, m =>
    let outcome := Action.peek address m
    ⟨.seen (outcome.result.map fun v => [v]), outcome.machine, outcome.events⟩
  | slice start stop, m => ⟨.seen (m.memory.slice start stop), m, []⟩

/-- The machines that a request takes steps from, in order. -/
def visits : Request → Machine → List Machine
  | execute suspend budget address, m => m.executeVisits suspend budget address
  | run budget, m => m.executeVisits .never budget (UInt16.ofNat m.programMemory.start)
  | step, m => [m]
  | _, _ => []

/-- Memory can be changed from outside without a bearing on the registers. -/
theorem registers_store (change : Except Fault Memory) (m : Machine) :
    (store change m).machine.registers = m.registers := by
  cases change <;> rfl

end Machine.Request

/-- Looking at the stack changes nothing. -/
theorem Action.machine_peek (address : Word) (m : Machine) : (peek address m).machine = m := by
  rw [peek, ask_bind]
  cases m.stack.visible address with
  | error fault => rfl
  | ok _ =>
    have hsame : (read address m).machine = m := looksOn_read address m
    rw [bind_ok rfl]
    exact hsame

theorem Memory.size_eq_of_write_eq_ok {m m' : Memory} {address : Word} {value : Byte}
    (h : m.write address value = .ok m') : m'.size = m.size := by
  rw [write] at h
  split at h
  · obtain rfl := Except.ok.inj h
    exact size_put ..
  · exact nomatch h

/-! ### What requests do not take away -/

/-- **An enduring property** of machines: a machine at work keeps it, and it does not depend
on the registers other than SP, nor on the run state. -/
structure Enduring (I : Machine → Prop) : Prop where
  step : ∀ m, I m → I (Action.step m).machine
  reset : ∀ m, I m → I (Action.reset m).machine
  /-- Registers are changed, but for SP. -/
  registers : ∀ m r, r.sp = m.registers.sp → I m → I { m with registers := r }
  state : ∀ m state, I m → I (m.inState state)

namespace Enduring

variable {I : Machine → Prop} (h : Enduring I) {m : Machine}

include h

theorem start (hm : I m) (address : Word) : I (Action.start address m).machine := by
  obtain hsame | ⟨first, hfirst⟩ := Action.machine_start address m
  · rwa [hsame]
  · rw [hfirst]
    exact h.state _ .running (h.registers m { m.registers with pc := first } rfl hm)

/-- **A run keeps an enduring property**, from the first step to the last. -/
theorem execute (hm : I m) (suspend : Suspension) (budget : Nat) (address : Word) :
    (∀ v ∈ m.executeVisits suspend budget address, I v) ∧
      I (m.execute suspend budget address).machine := by
  obtain ⟨m', state, hpasses, hmachine⟩ := Machine.exists_passes_execute suspend budget address m
  obtain ⟨hway, hend⟩ := hpasses.invariant h.step (h.start hm address)
  rw [hmachine]
  exact ⟨hway, h.state m' state hend⟩

/-- No general register is SP. -/
theorem setRegister (hm : I m) (register : Register) (value : Byte) :
    I { m with registers := m.registers.set register value } := by
  refine h.registers m _ ?_ hm
  cases register <;> rfl

end Enduring

/-- **A persistent property** of machines: an enduring one on which memory has a bearing only by
its size. -/
structure Persistent (I : Machine → Prop) : Prop extends Enduring I where
  memory : ∀ (m : Machine) (memory : Memory), memory.size = m.memory.size → I m →
    I { m with memory }

namespace Persistent

variable {I : Machine → Prop} (h : Persistent I) {m : Machine}

include h

/-- Memory can be changed from outside, but not its size. -/
theorem store (hm : I m) {change : Except Fault Memory}
    (hsize : ∀ memory, change = .ok memory → memory.size = m.memory.size) :
    I (Machine.Request.store change m).machine := by
  cases change with
  | error fault => exact hm
  | ok memory => exact h.memory m memory (hsize memory rfl) hm

/-- **No request takes a persistent property away**, and all steps it takes are from machines
that have it. -/
theorem perform (hm : I m) (request : Machine.Request) :
    (∀ v ∈ request.visits m, I v) ∧ I (request.perform m).machine := by
  cases request with
  | load start values =>
    exact ⟨List.forall_mem_nil _,
      h.store hm fun _ hload => (Memory.cell?_of_load_eq_ok hload).1⟩
  | write address value =>
    exact ⟨List.forall_mem_nil _,
      h.store hm fun _ hwrite => Memory.size_eq_of_write_eq_ok hwrite⟩
  | clear => exact ⟨List.forall_mem_nil _, h.store hm fun _ hclear => Except.ok.inj hclear ▸ rfl⟩
  | execute suspend budget address => exact h.execute hm suspend budget address
  | run budget => exact h.execute hm .never budget _
  | step => exact ⟨List.forall_mem_singleton.2 hm, h.step m hm⟩
  | reset => exact ⟨List.forall_mem_nil _, h.reset m hm⟩
  | setRegister register value => exact ⟨List.forall_mem_nil _, h.setRegister hm register value⟩
  | setStatus | setCounter => exact ⟨List.forall_mem_nil _, h.registers m _ rfl hm⟩
  | peek address =>
    refine ⟨List.forall_mem_nil _, ?_⟩
    rw [Machine.Request.perform, Action.machine_peek]
    exact hm
  | slice => exact ⟨List.forall_mem_nil _, hm⟩

end Persistent

end EightBit
