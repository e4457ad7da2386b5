import EightBit.Proofs.Machine.AllOrNothing
import EightBit.Proofs.Machine.StackDepth

/-!
# Which instructions fault

Where memory spans the address space, one can tell from the three bytes of an instruction and
the depth of the stack whether it faults, and with which fault: if the first byte is no opcode,
if a register is named that does not exist, if there is no room for what is pushed, or if there
is less on the stack than is popped (`EightBit.Machine.FaultsWith`). The registers, the flags and
the rest of memory have no bearing on it.

In a smaller memory there is one more thing that can happen: a cell that the step gets to may be
missing (`EightBit.Machine.Touches`), and then the fault names that cell. If none is missing that
is needed, all is as it would be in a memory that spans the address space. Both is the matter of
`EightBit.step_faults_iff`.
-/

namespace EightBit

/-! ### Faults and cells -/

/-- **The faults of an operation** with its operand bytes, on a stack with so many bytes, if no
cell is missing. -/
inductive Operation.FaultsWith (operation : Operation) (first second : Byte) (layout : Layout)
    (depth : Nat) : Fault → Prop
  /-- The first of the operand bytes that name no register. -/
  | register {index : Byte} : operation = .move →
    [first, second].find? (fun i => decide (i.toNat < 1 ∨ 5 < i.toNat)) = some index →
    FaultsWith operation first second layout depth (.invalidRegister index)
  /-- There is no room for all that is pushed. -/
  | overflow : layout.stack.size < depth + operation.pushes →
    FaultsWith operation first second layout depth
      (.stackFault .overflow ((layout.stack.start : Int) - 1))
  /-- There is less on the stack than is popped. -/
  | underflow : depth < operation.pops →
    FaultsWith operation first second layout depth
      (.stackFault .underflow ((layout.stack.stop : Int) - 1))

/-- **The faults of an instruction** if no cell is missing. -/
inductive Machine.FaultsWith (layout : Layout) (m : Machine) (t : Triple) : Fault → Prop
  /-- The first byte is no opcode. -/
  | illegal : 91 ≤ t.opcode.toNat →
    FaultsWith layout m t (.illegalInstruction t.opcode m.registers.pc)
  | operation {form : Form} {fault : Fault} : Form.ofOpcode? t.opcode = some form →
    form.mnemonic.operation.FaultsWith t.first t.second layout m.stack.depth fault →
    FaultsWith layout m t fault

/-- **The cells that an operation gets to**, those of the stack included. -/
inductive Operation.Touches (operation : Operation) (mode : Mode) (first second : Byte)
    (place : Place) (s : Stack) : Word → Prop
  /-- The cell of the operand, or the two cells with the address to go on at. -/
  | operand {address : Word} : operation.Reaches mode first second place address →
    Touches operation mode first second place s address
  /-- The cells for the bytes that are pushed. -/
  | push {k : Nat} : k < operation.pushes →
    Touches operation mode first second place s (s.freeCell k)
  /-- The cells with the bytes that are popped. -/
  | pop {k : Nat} : k < operation.pops →
    Touches operation mode first second place s (s.cellAt k)

/-- **The cells that a step gets to.** -/
inductive Machine.Touches (m : Machine) : Word → Prop
  /-- The three bytes of the instruction. -/
  | fetch {k : Word} : k ∈ ([0, 1, 2] : List Word) → Touches m (m.registers.pc + k)
  | operation {t : Triple} {form : Form} {address : Word} : m.Fetches t →
    Form.ofOpcode? t.opcode = some form →
    form.mnemonic.operation.Touches form.mode t.first t.second
      (form.mode.place m.registers t.first t.second) m.stack address →
    Touches m address

namespace Operation

variable {operation : Operation} {first second : Byte} {layout : Layout} {depth : Nat}
  {fault fault' : Fault}

/-- No operation both pushes and pops. -/
theorem pushes_eq_zero_or_pops_eq_zero (operation : Operation) :
    operation.pushes = 0 ∨ operation.pops = 0 := by
  cases operation <;> simp [pushes, pops]

theorem pushes_and_pops_of_usesStack (h : operation.usesStack = false) :
    operation.pushes = 0 ∧ operation.pops = 0 := by
  cases operation <;> simp_all [usesStack, pushes, pops]

/-- **An operation has one fault at most.** -/
theorem FaultsWith.unique (hdepth : depth ≤ layout.stack.size)
    (h : operation.FaultsWith first second layout depth fault)
    (h' : operation.FaultsWith first second layout depth fault') : fault' = fault := by
  have hone := operation.pushes_eq_zero_or_pops_eq_zero
  cases h with
  | register hmove hfind =>
    subst hmove
    cases h' with
    | register _ hfind' => rw [Option.some.inj (hfind'.symm.trans hfind)]
    | overflow hlt => exact absurd hdepth (Nat.not_le_of_lt hlt)
    | underflow hlt => exact absurd hlt (Nat.not_lt_zero _)
  | overflow hlt =>
    cases h' with
    | register hmove =>
      subst hmove
      exact absurd hdepth (Nat.not_le_of_lt hlt)
    | overflow => rfl
    | underflow hlt' => omega
  | underflow hlt =>
    cases h' with
    | register hmove =>
      subst hmove
      exact absurd hlt (Nat.not_lt_zero _)
    | overflow hlt' => omega
    | underflow => rfl

/-- **An operation has none** if there is room for what it pushes and as much as it pops, copies
between registers apart. -/
theorem not_faultsWith (hmove : operation ≠ .move)
    (hroom : depth + operation.pushes ≤ layout.stack.size) (hfound : operation.pops ≤ depth) :
    ¬operation.FaultsWith first second layout depth fault := by
  rintro (⟨hmoves, -⟩ | hlt | hlt)
  · exact hmove hmoves
  · exact Nat.not_lt_of_le hroom hlt
  · exact Nat.not_lt_of_le hfound hlt

end Operation

/-- An instruction with an opcode has the faults of its operation. -/
theorem Machine.faultsWith_iff {layout : Layout} {m : Machine} {t : Triple} {form : Form}
    {fault : Fault} (hform : Form.ofOpcode? t.opcode = some form) :
    m.FaultsWith layout t fault ↔
      form.mnemonic.operation.FaultsWith t.first t.second layout m.stack.depth fault := by
  constructor
  · rintro (hillegal | ⟨hform', hfault⟩)
    · exact nomatch hform.symm.trans (Form.ofOpcode?_eq_none_iff.2 hillegal)
    · obtain rfl := Option.some.inj (hform.symm.trans hform')
      exact hfault
  · exact .operation hform

/-! ### Verdicts -/

/-- **A result is decided** by which fault there has to be, if there has to be one. -/
structure Decided (F : Fault → Prop) (result : Except Fault Unit) : Prop where
  error_iff : ∀ fault, result = .error fault ↔ F fault
  ok_iff : result = .ok () ↔ ∀ fault, ¬F fault

namespace Decided

variable {F : Fault → Prop}

theorem of_ok (h : ∀ fault, ¬F fault) : Decided F (.ok ()) := by
  refine ⟨fun fault => ⟨fun hfault => ?_, fun hfault => ?_⟩, fun _ => h, fun _ => rfl⟩
  · exact nomatch hfault
  · exact absurd hfault (h fault)

/-- There is one fault at most. -/
theorem of_error {fault : Fault} (h : F fault) (hunique : ∀ {fault'}, F fault' → fault' = fault) :
    Decided F (.error fault) := by
  refine ⟨fun fault' => ⟨fun hfault => ?_, fun hfault => ?_⟩, ?_, fun hnone => ?_⟩
  · obtain rfl := Except.error.inj hfault
    exact h
  · rw [hunique hfault]
  · exact fun hok => nomatch hok
  · exact absurd h (hnone fault)

end Decided

/-- **A verdict**: one of some cells is missing, or the result is decided. -/
def Verdict (cells : Word → Prop) (size : Nat) (F : Fault → Prop) (result : Except Fault Unit) :
    Prop :=
  (∃ address, cells address ∧ size ≤ address.toNat ∧
    result = .error (.outOfBounds address.toNat size)) ∨ Decided F result

namespace Verdict

variable {cells : Word → Prop} {size : Nat} {F : Fault → Prop}

theorem of_missing {address : Word} (hcell : cells address) (hsize : size ≤ address.toNat) :
    Verdict cells size F (.error (.outOfBounds address.toNat size)) :=
  Or.inl ⟨address, hcell, hsize, rfl⟩

/-- The verdict where it is known what speaks for success and what for the one fault. -/
theorem of_cases {result : Except Fault Unit} {good bad : Prop} {fault : Fault} {n : Nat}
    {cell : Nat → Word}
    (hcases : (good ∧ result = .ok ()) ∨ (bad ∧ result = .error fault) ∨
      ∃ k < n, size ≤ (cell k).toNat ∧ result = .error (.outOfBounds (cell k).toNat size))
    (hgood : good → ∀ fault, ¬F fault) (hbad : bad → F fault)
    (hunique : ∀ {fault fault'}, F fault → F fault' → fault' = fault)
    (hcell : ∀ k < n, cells (cell k)) : Verdict cells size F result := by
  rcases hcases with ⟨h, hok⟩ | ⟨h, herror⟩ | ⟨k, hk, hmissing, herror⟩
  · rw [hok]
    exact Or.inr (.of_ok (hgood h))
  · rw [herror]
    exact Or.inr (.of_error (hbad h) (hunique (hbad h)))
  · rw [herror]
    exact of_missing (hcell k hk) hmissing

end Verdict

namespace Action

variable {layout : Layout} {n : Nat}

/-! ### Pushes and pops -/

/-- **An action pushes a number of bytes**, and can fail in no other way than that: there is no
room for all of them, or a cell for one of them is missing. -/
def Pushes (layout : Layout) (n : Nat) (x : Action Unit) : Prop :=
  ∀ m : Machine, m.LaidOut layout →
    (m.stack.depth + n ≤ layout.stack.size ∧ (x m).result = .ok ()) ∨
    (layout.stack.size < m.stack.depth + n ∧ (x m).result =
      .error (.stackFault .overflow ((layout.stack.start : Int) - 1))) ∨
    ∃ k < n, m.memory.size ≤ (m.stack.freeCell k).toNat ∧
      (x m).result = .error (.outOfBounds (m.stack.freeCell k).toNat m.memory.size)

/-- **An action pops a number of bytes**, and can fail in no other way than that. -/
def Pops (layout : Layout) (n : Nat) (x : Action Unit) : Prop :=
  ∀ m : Machine, m.LaidOut layout →
    (n ≤ m.stack.depth ∧ (x m).result = .ok ()) ∨
    (m.stack.depth < n ∧ (x m).result =
      .error (.stackFault .underflow ((layout.stack.stop : Int) - 1))) ∨
    ∃ k < n, m.memory.size ≤ (m.stack.cellAt k).toNat ∧
      (x m).result = .error (.outOfBounds (m.stack.cellAt k).toNat m.memory.size)

section

variable (hvalid : layout.stack.Valid)

include hvalid

theorem Sure.pushes {x : Action Unit} (hx : Sure Unit x) : Pushes layout 0 x := by
  intro m h
  obtain ⟨⟨⟩, hok⟩ := hx m
  exact Or.inl ⟨h.depth_le hvalid, hok⟩

omit hvalid in
theorem Sure.pops {x : Action Unit} (hx : Sure Unit x) : Pops layout 0 x := by
  intro m h
  obtain ⟨⟨⟩, hok⟩ := hx m
  exact Or.inl ⟨Nat.zero_le _, hok⟩

/-- **A push before others.** -/
theorem Pushes.push_bind {f : Unit → Action Unit} (hf : Pushes layout n (f ())) (v : Byte) :
    Pushes layout (n + 1) (push v >>= f) := by
  intro m h
  rcases h.push_cases hvalid v with ⟨hfull, heq⟩ | ⟨-, hmissing, heq⟩ | ⟨hroom, -, heq⟩
  · rw [bind_error heq]
    exact Or.inr (Or.inl ⟨by omega, rfl⟩)
  · rw [bind_error heq]
    exact Or.inr (Or.inr ⟨0, Nat.succ_pos n, hmissing, rfl⟩)
  · have hdepth := h.depth_pushed hvalid (m.stack.freeCell 0) v
    have hrest := hf _ (h.pushed_of_room hvalid hroom v)
    simp only [Machine.stack_pushed, Machine.memory_pushed, Memory.size_put,
      Stack.freeCell_down] at hdepth hrest
    rw [bind_ok heq]
    rcases hrest with ⟨hle, hok⟩ | ⟨hlt, herror⟩ | ⟨k, hk, hmissing, herror⟩
    · exact Or.inl ⟨by omega, hok⟩
    · exact Or.inr (Or.inl ⟨by omega, herror⟩)
    · exact Or.inr (Or.inr ⟨k + 1, Nat.succ_lt_succ hk, hmissing, herror⟩)

/-- **A pop before others.** -/
theorem Pops.pop_bind {f : Byte → Action Unit} (hf : ∀ v, Pops layout n (f v)) :
    Pops layout (n + 1) (pop >>= f) := by
  intro m h
  rcases h.pop_cases hvalid with ⟨hempty, heq⟩ | ⟨-, hmissing, heq⟩ | ⟨v, hpos, -, heq⟩
  · rw [bind_error heq]
    exact Or.inr (Or.inl ⟨by omega, rfl⟩)
  · rw [bind_error heq]
    exact Or.inr (Or.inr ⟨0, Nat.succ_pos n, hmissing, rfl⟩)
  · have hdepth := m.depth_popped (m.stack.cellAt 0)
    have hrest := hf v _ (h.popped_of_pos hvalid hpos)
    simp only [Machine.stack_popped, Machine.memory_popped, Memory.size_put,
      Stack.cellAt_up] at hdepth hrest
    rw [bind_ok heq]
    rcases hrest with ⟨hle, hok⟩ | ⟨hlt, herror⟩ | ⟨k, hk, hmissing, herror⟩
    · exact Or.inl ⟨by omega, hok⟩
    · exact Or.inr (Or.inl ⟨by omega, herror⟩)
    · exact Or.inr (Or.inr ⟨k + 1, Nat.succ_lt_succ hk, hmissing, herror⟩)

/-- A byte of the machine is pushed. -/
theorem pushes_ask_bind_push (g : Machine → Byte) : Pushes layout 1 (ask g >>= push) := by
  intro m
  have hpush := Pushes.push_bind hvalid (f := pure) (Sure.pushes hvalid (sure_pure ())) (g m)
  rw [bind_pure] at hpush
  rw [ask_bind]
  exact hpush m

theorem pushes_call (target : Word) : Pushes layout 2 (call target) := by
  intro m
  rw [call, pc, ask_bind]
  have hlow := Pushes.push_bind hvalid (f := fun _ => setPC target)
    (Sure.pushes hvalid (sure_updateRegisters _)) m.registers.pc.low
  exact Pushes.push_bind hvalid (f := fun _ => push m.registers.pc.low >>= fun _ => setPC target)
    hlow m.registers.pc.high m

theorem pops_pop_bind {f : Byte → Action Unit} (hf : ∀ v, Sure Unit (f v)) :
    Pops layout 1 (pop >>= f) :=
  Pops.pop_bind hvalid fun v => (hf v).pops

theorem pops_comeBack : Pops layout 2 comeBack :=
  Pops.pop_bind hvalid fun _ => pops_pop_bind hvalid fun _ => sure_updateRegisters _

end

/-! ### Operations -/

variable {operation : Operation} {mode : Mode} {first second : Byte}
  {place : Place} {m : Machine} (h : m.LaidOut layout) (hvalid : layout.stack.Valid)

include h hvalid

/-- **The verdict on an operation that pushes.** -/
theorem verdict_of_pushes {x : Action Unit} (hx : Pushes layout operation.pushes x)
    (hpops : operation.pops = 0) (hmove : operation ≠ .move) :
    Verdict (operation.Touches mode first second place m.stack) m.memory.size
      (operation.FaultsWith first second layout m.stack.depth) (x m).result := by
  refine .of_cases (hx m h) (fun hroom _ => ?_) .overflow
    (Operation.FaultsWith.unique (h.depth_le hvalid)) fun _ hk => .push hk
  exact Operation.not_faultsWith hmove hroom (by omega)

/-- **The verdict on an operation that pops.** -/
theorem verdict_of_pops {x : Action Unit} (hx : Pops layout operation.pops x)
    (hpushes : operation.pushes = 0) (hmove : operation ≠ .move) :
    Verdict (operation.Touches mode first second place m.stack) m.memory.size
      (operation.FaultsWith first second layout m.stack.depth) (x m).result := by
  have hdepth := h.depth_le hvalid
  refine .of_cases (hx m h) (fun hfound _ => ?_) .underflow
    (Operation.FaultsWith.unique hdepth) fun _ hk => .pop hk
  exact Operation.not_faultsWith hmove (by omega) hfound

/-- **The verdict on a copy between registers.** -/
theorem verdict_move : Verdict (Operation.move.Touches mode first second place m.stack)
    m.memory.size (Operation.move.FaultsWith first second layout m.stack.depth)
    (move first second m).result := by
  have hdepth := h.depth_le hvalid
  have hnone : (fun i : Byte => (Register.ofIndex? i).isNone) =
      fun i => decide (i.toNat < 1 ∨ 5 < i.toNat) := by
    funext i
    rw [Bool.eq_iff_iff, Option.isNone_iff_eq_none, Register.ofIndex?_eq_none_iff,
      decide_eq_true_iff]
  have hcases := move_cases first second m
  rw [hnone] at hcases
  rcases hcases with ⟨hall, hok⟩ | ⟨index, hfind, hstop⟩
  · rw [hok]
    refine Or.inr (.of_ok ?_)
    rintro _ (⟨-, hfind⟩ | hlt | hlt)
    · exact nomatch hall.symm.trans hfind
    · exact Nat.not_lt_of_le hdepth hlt
    · exact Nat.not_lt_zero _ hlt
  · rw [hstop.result]
    exact Or.inr (.of_error (.register rfl hfind)
      (Operation.FaultsWith.unique hdepth (.register rfl hfind)))

/-- **The verdict on every operation.** -/
theorem verdict_perform (operation : Operation) (mode : Mode) (first second : Byte)
    (place : Place) :
    Verdict (operation.Touches mode first second place m.stack) m.memory.size
      (operation.FaultsWith first second layout m.stack.depth)
      (perform operation mode first second place m).result := by
  by_cases hmove : operation = .move
  · subst hmove
    exact verdict_move h hvalid
  by_cases hstack : operation.usesStack = true
  · cases operation with
    | call => exact verdict_of_pushes h hvalid (pushes_call hvalid _) rfl hmove
    | pushStatus | pushA =>
      exact verdict_of_pushes h hvalid (pushes_ask_bind_push hvalid _) rfl hmove
    | comeBack => exact verdict_of_pops h hvalid (pops_comeBack hvalid) rfl hmove
    | popStatus | popA =>
      exact verdict_of_pops h hvalid (pops_pop_bind hvalid fun _ => sure_updateRegisters _) rfl
        hmove
    | _ => exact nomatch hstack
  · have hnone := eq_false_of_ne_true hstack
    obtain ⟨hpushes, hpops⟩ := Operation.pushes_and_pops_of_usesStack hnone
    have hdepth := h.depth_le hvalid
    have hrequires : Requires (operation.Reaches mode first second place) Unit
      (perform operation mode first second place) := requires_perform hnone hmove
    rcases hrequires m with ⟨⟨⟩, hok⟩ | ⟨address, hcell, hsize, hstop⟩
    · rw [hok]
      exact Or.inr (.of_ok fun _ => Operation.not_faultsWith hmove (by omega) (by omega))
    · rw [hstop.result]
      exact .of_missing (.operand hcell) hsize

/-! ### Steps -/

/-- **The verdict on every step.** -/
theorem verdict_step : (∃ address, m.Touches address ∧ m.memory.size ≤ address.toNat ∧
      (step m).result = .error (.outOfBounds address.toNat m.memory.size)) ∨
    ∃ t, m.Fetches t ∧ Decided (m.FaultsWith layout t) (step m).result := by
  rcases step_cases m with ⟨k, hk, hmissing, hstop⟩ | ⟨t, ht, hform, hstop⟩ | ⟨t, form, ht, hform⟩
  · exact Or.inl ⟨_, .fetch hk, Memory.size_le_of_cell?_eq_none hmissing, hstop.result⟩
  · refine Or.inr ⟨t, ht, ?_⟩
    rw [hstop.result]
    refine .of_error (.illegal (Form.ofOpcode?_eq_none_iff.1 hform)) ?_
    rintro _ (- | ⟨hsome, -⟩)
    · rfl
    · exact nomatch hform.symm.trans hsome
  · rw [result_step ht hform]
    rcases verdict_perform h hvalid form.mnemonic.operation form.mode t.first t.second
      (form.mode.place m.registers t.first t.second) with ⟨address, htouch, hmissing⟩ | hdecided
    · exact Or.inl ⟨address, .operation ht hform htouch, hmissing⟩
    · have hfaults : m.FaultsWith layout t =
          form.mnemonic.operation.FaultsWith t.first t.second layout m.stack.depth := by
        funext fault
        exact propext (Machine.faultsWith_iff hform)
      refine Or.inr ⟨t, ht, ?_⟩
      rw [hfaults]
      exact hdecided

end Action

/-- **Exactly which instructions fault.** Whatever has been done to a machine before: where memory
spans the address space, a step fails exactly with the fault that follows from its instruction
and the depth of the stack, and succeeds if there is none. In any memory that is also what a
step comes to, unless a cell that it gets to is missing; then it fails because of that cell. -/
theorem step_faults_iff {layout : Layout} {memorySize : Nat} {m₀ m : Machine}
    (h : Machine.new layout memorySize = .ok m₀) {commands : List Command}
    (hm : m₀.after commands = m) :
    (addressSpace ≤ m.memory.size →
      ∃ t, m.Fetches t ∧ Decided (m.FaultsWith layout t) (Action.step m).result) ∧
    ((∃ address, m.Touches address ∧ m.memory.size ≤ address.toNat ∧
        (Action.step m).result = .error (.outOfBounds address.toNat m.memory.size)) ∨
      ∃ t, m.Fetches t ∧ Decided (m.FaultsWith layout t) (Action.step m).result) := by
  have hvalid := (Machine.new_eq_ok_iff.1 h).1
  have hlaidOut := ((Lasting.laidOut hvalid).along (.of_new h) commands).2
  rw [hm] at hlaidOut
  have hverdict := Action.verdict_step hlaidOut hvalid.2
  refine ⟨fun hsize => ?_, hverdict⟩
  rcases hverdict with ⟨address, -, hmissing, -⟩ | hdecided
  · exact absurd (Nat.le_trans hsize hmissing) (Nat.not_le_of_lt address.toNat_lt)
  · exact hdecided

/-- On a stack of two cells with a byte in one of them, there is no room for a call. -/
theorem step_faults_iff_second_byte :
    ∃ m₀ m commands, Machine.new .bottom 18 = .ok m₀ ∧
      commands = [.changeMemory fun memory => memory.putAll 5 (image [⟨0x2B, 0, 0⟩, ⟨0x1E, 0, 5⟩]),
        .request (.execute .never 1 5)] ∧
      m₀.after commands = m ∧ m.stack.depth = 1 ∧
      ∃ t, m.Fetches t ∧ m.FaultsWith .bottom t (.stackFault .overflow (-1)) := by
  have hfaults : ∀ m₀ m commands, Machine.new .bottom 18 = .ok m₀ → m₀.after commands = m →
      (Action.step m).result = .error (.stackFault .overflow (-1)) →
      ∃ t, m.Fetches t ∧ m.FaultsWith .bottom t (.stackFault .overflow (-1)) := by
    intro m₀ m commands h hm hfault
    rcases (step_faults_iff h hm).2 with ⟨address, -, -, hmissing⟩ | ⟨t, ht, hdecided⟩
    · exact nomatch hfault.symm.trans hmissing
    · exact ⟨t, ht, (hdecided.error_iff _).1 hfault⟩
  exact ⟨_, _, _, rfl, rfl, rfl, by decide +kernel, hfaults _ _ _ rfl rfl rfl⟩

end EightBit
