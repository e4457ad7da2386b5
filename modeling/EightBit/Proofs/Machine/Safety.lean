import EightBit.Proofs.Machine.Faults
import EightBit.Proofs.Machine.Operand
import EightBit.Proofs.Machine.StraightLine

/-!
# Assembled programs do not go wrong

The assembler puts down only opcodes that the machine knows, and only operand bytes that
suit them. So a program that has been assembled and loaded cannot be struck by an illegal
instruction or an invalid register, as long as it is the program that is performed: each
instruction is fetched from where an instruction of the program has been put, and the
image is what it was.

What is written to the image need not be nothing, but it must be what stands there already
(`EightBit.Leaves`). That is kept up by every single write, so by whole runs
(`EightBit.Machine.Steps.holds`), with jumps, calls and branches in them or not.

If memory spans the address space, an assembled program can then only overflow or underflow
its stack – with one exception (`EightBit.fault_of_step_of_assemble`). A memory can be larger
than the address space and an image can cross the end of the latter. The operand bytes of
the instruction on the border are fetched from the first cells of memory, as addresses wrap
around, and there they need not be the indices of registers
(`EightBit.step_ofMoveOnTheBorder`).
-/

namespace EightBit

/-! ### Runs that leave an image as it is -/

/-- Whether an event leaves a run of bytes as it is: it is no write to one of its cells, or
it writes the byte that stands there. -/
def Event.Leaves (start : Nat) (values : List Byte) : Event → Prop
  | write address v true =>
    start ≤ address.toNat → ∀ old ∈ values[address.toNat - start]?, old = v
  | _ => True

instance (start : Nat) (values : List Byte) : DecidablePred (Event.Leaves start values)
  | .write address v true => inferInstanceAs (Decidable
      (start ≤ address.toNat → ∀ old ∈ values[address.toNat - start]?, old = v))
  | .write _ _ false | .read .. | .print _ | .stackMove _ | .advance _ => instDecidableTrue

/-- **Some events leave a run of bytes as it is** if each of them does. -/
def Leaves (start : Nat) (values : List Byte) (es : List Event) : Prop :=
  ∀ e ∈ es, e.Leaves start values

instance (start : Nat) (values : List Byte) (es : List Event) :
    Decidable (Leaves start values es) :=
  inferInstanceAs (Decidable (∀ e ∈ es, e.Leaves start values))

/-- A byte that stands in memory can be written again. -/
theorem Memory.Holds.put {m : Memory} {start address : Nat} {values : List Byte} {v : Byte}
    (h : m.Holds start values)
    (hv : start ≤ address → ∀ old ∈ values[address - start]?, old = v) :
    (m.put address v).Holds start values := by
  intro i hi
  rw [cell?_put]
  split
  · rename_i hin
    obtain ⟨rfl, -⟩ := hin
    have hold := hv (Nat.le_add_right start i) values[i] (by
      rw [Nat.add_sub_cancel_left, List.getElem?_eq_getElem hi]
      exact rfl)
    rw [hold]
  · exact h i hi

/-- **What stands in memory stays there** as long as every write leaves it as it is. -/
theorem Trail.holds (start : Nat) (values : List Byte) : Trail.Moving fun m es m' =>
    Leaves start values es → m.memory.Holds start values → m'.memory.Holds start values where
  refl _ _ h := h
  trans hfirst hrest hes h :=
    have hes := List.forall_mem_append.1 hes
    hrest hes.2 (hfirst hes.1 h)
  registers _ _ _ _ _ h := h
  print _ _ _ h := h
  read _ _ _ h := h
  write _ _ _ _ hes h := h.put (hes _ List.mem_cons_self)
  miss _ _ _ _ _ h := h
  push _ _ _ _ _ hes h := h.put (hes _ List.mem_cons_self)
  pop _ _ _ _ _ hes h := h.put (hes _ (List.mem_cons_of_mem _ List.mem_cons_self))
  anyRegisters _ _ _ _ h := h
  advance _ _ h := h

namespace Machine.Steps

variable {pcs : List Word} {m m' : Machine} {es : List Event}

/-- **Steps in a row go along a trail** that bears with a moving program counter. -/
theorem along {R : Machine → List Event → Machine → Prop} (hR : Trail.Moving R)
    (h : Steps pcs m es m') : R m es m' := by
  induction h with
  | nil => exact hR.refl _
  | @cons pcs m m₁ m' es es' hstep _ ih =>
    have hfirst := hR.along_step m
    rw [hstep] at hfirst
    exact hR.trans hfirst ih

/-- Steps in a row leave memory as large as it is. -/
theorem size_eq (h : Steps pcs m es m') : m'.memory.size = m.memory.size :=
  h.along Trail.size

/-- **Steps in a row keep what stands in memory**, if every write leaves it as it is. -/
theorem holds (h : Steps pcs m es m') {start : Nat} {values : List Byte}
    (hleaves : Leaves start values es) (hholds : m.memory.Holds start values) :
    m'.memory.Holds start values :=
  h.along (Trail.holds start values) hleaves hholds

end Machine.Steps

/-! ### The instructions of an assembled program -/

/-- **Every instruction of an assembled program encodes something.** -/
theorem exists_encodes_of_mem {p : Punctuation} {number : Nat} {ls : List Text}
    {program : List Triple} (h : assembleLines p number ls = .ok program) {t : Triple}
    (ht : t ∈ program) : ∃ mnemonic d, t.Encodes mnemonic d := by
  obtain ⟨k, hk, rfl⟩ := List.mem_iff_getElem.1 ht
  have hlines := assembleLines_eq_ok_iff.1 h
  have hline := hlines.get (i := k) (hlines.length_eq.symm ▸ hk) hk
  obtain ⟨-, -, mnemonic, d, -, -, -, hencodes⟩ := assembleLine_eq_ok_some_iff.1 hline
  exact ⟨mnemonic, d, hencodes⟩

/-- **An instruction that copies registers names two of them**, if it encodes anything. -/
theorem Triple.Encodes.isSome_ofIndex? {t : Triple} {mnemonic : Mnemonic} {d : Designation}
    (h : t.Encodes mnemonic d) (hmove : mnemonic.operation = .move) :
    ∀ index ∈ [t.first, t.second], (Register.ofIndex? index).isSome = true := by
  have hsuits := suits_of_ofOpcode? h.opcode
  dsimp only at hsuits
  rw [hmove] at hsuits
  cases d with
  | registers source target =>
    rw [h.first, h.second]
    simp [Designation.operands]
  | _ => cases hsuits

/-- There is one form only that copies registers. -/
theorem eq_mov_of_operation_eq_move {opcode : Byte} {form : Form}
    (h : Form.ofOpcode? opcode = some form) (hmove : form.mnemonic.operation = .move) :
    form = ⟨.mov, .registerCoded⟩ := by
  have htable : ∀ form ∈ Form.table, form.mnemonic.operation = .move →
      form = ⟨.mov, .registerCoded⟩ := by
    decide
  exact htable form (List.mem_of_getElem? h) hmove

/-! ### The next step -/

/-- **A step at an instruction of a program that encodes something** fails only for its
stack, or because it copies registers across the end of the address space. -/
theorem Machine.fault_of_step_of_holds {m : Machine} {t : Triple} {mnemonic : Mnemonic}
    {d : Designation} {fault : Fault} (hencodes : t.Encodes mnemonic d)
    (hholds : m.memory.Holds m.registers.pc.toNat t.bytes)
    (hsize : addressSpace ≤ m.memory.size) (h : (Action.step m).result = .error fault) :
    (∃ misuse pointer, fault = .stackFault misuse pointer ∧ misuse ≠ .outOfRange) ∨
      ∃ index, fault = .invalidRegister index ∧ mnemonic.operation = .move ∧
        addressSpace < m.registers.pc.toNat + 3 := by
  obtain ⟨fetched, hfetched⟩ := m.exists_fetches hsize
  have hopcode : fetched.opcode = t.opcode :=
    Option.some.inj (hfetched.opcode.symm.trans (Memory.holds_cons.1 hholds).1)
  have hform : Form.ofOpcode? fetched.opcode = some ⟨mnemonic, d.operands.mode⟩ :=
    hopcode ▸ hencodes.opcode
  refine (Action.canFail_of_step hfetched hform h).of_spans hsize |>.imp_right ?_
  rintro ⟨index, hindex, hfault, hmove, hnone⟩
  refine ⟨index, hfault, hmove, Nat.lt_of_not_le fun hfits => ?_⟩
  -- Short of the end of the address space the operand bytes are those of the program.
  obtain rfl := hfetched.unique (fetches_of_holds hholds (by omega))
  have hsome := hencodes.isSome_ofIndex? hmove index hindex
  rw [hnone] at hsome
  exact nomatch hsome

/-- **Assembled programs do not go wrong.** Take any source text that is assembled, loaded
anywhere into a memory that spans the address space, and any steps in a row from there that
leave the image as it is. If the program counter then stands at an instruction of the
program and the next step fails, the stack has overflowed or underflowed; or else that
instruction copies registers, and does not end within the address space. -/
theorem fault_of_step_of_assemble {p : Punctuation} {source : Text} {program : List Triple}
    {m₀ m m' : Machine} {start k : Nat} {pcs : List Word} {es : List Event} {fault : Fault}
    (hassemble : assemble p source = .ok (image program))
    (hload : m₀.load start (image program) = .ok m) (hsize : addressSpace ≤ m.memory.size)
    (hsteps : m.Steps pcs es m') (hleaves : Leaves start (image program) es)
    (hk : k < program.length) (hpc : m'.registers.pc.toNat = start + 3 + 3 * k)
    (h : (Action.step m').result = .error fault) :
    (∃ pointer, fault = .stackFault .overflow pointer ∨ fault = .stackFault .underflow pointer) ∨
      ∃ index, fault = .invalidRegister index ∧ addressSpace < start + 3 + 3 * k + 3 ∧
        Form.ofOpcode? program[k].opcode = some ⟨.mov, .registerCoded⟩ := by
  obtain ⟨program', hlines, -, himage⟩ := assemble_eq_ok_iff.1 hassemble
  obtain rfl := image_injective himage
  obtain ⟨mnemonic, d, hencodes⟩ := exists_encodes_of_mem hlines (List.getElem_mem hk)
  -- The image is still where it has been loaded, and memory is as large.
  obtain ⟨memory, hmemory, rfl⟩ := Machine.load_eq_ok_iff.1 hload
  have himage := hsteps.holds hleaves (Memory.holds_of_load_eq_ok hmemory)
  have hthere := Memory.holds_program_iff.1 (Memory.holds_append.1 himage).2 k _
    (List.getElem?_eq_getElem hk)
  have hspans : addressSpace ≤ m'.memory.size := hsteps.size_eq ▸ hsize
  obtain ⟨misuse, pointer, rfl, hmisuse⟩ | ⟨index, rfl, hmove, hborder⟩ :=
    Machine.fault_of_step_of_holds hencodes (hpc.symm ▸ hthere) hspans h
  · left
    cases misuse with
    | overflow => exact ⟨pointer, Or.inl rfl⟩
    | underflow => exact ⟨pointer, Or.inr rfl⟩
    | outOfRange => exact absurd rfl hmisuse
  · rw [hpc] at hborder
    have hform := eq_mov_of_operation_eq_move hencodes.opcode hmove
    exact Or.inr ⟨index, rfl, hborder, hform ▸ hencodes.opcode⟩

/-- A machine with room for two bytes on its stack, about to perform the first of two
instructions: to push A, and to go back to the first. -/
def Machine.ofTwoDeepStack : Machine where
  registers := { pc := 3 }
  stack := .new 16 2
  programMemory := ⟨0, 16⟩
  state := .ready
  memory := (Memory.zeros addressSpace).putAll 0 (image [⟨0x2B, 0, 0⟩, ⟨0x1C, 0, 0⟩])

/-- The third push of an endless loop overflows the stack. -/
theorem fault_of_step_ofTwoDeepStack :
    assemble .standard "PHA\nJMP 0".toList = .ok (image [⟨0x2B, 0, 0⟩, ⟨0x1C, 0, 0⟩]) ∧
      ∃ m' es, Machine.ofTwoDeepStack.stepTimes 4 = (4, ⟨.ok (), m', es⟩) ∧
        ∃ fault pointer, (Action.step m').result = .error fault ∧
          (fault = .stackFault .overflow pointer ∨ fault = .stackFault .underflow pointer) := by
  have hassemble : assemble .standard "PHA\nJMP 0".toList =
      .ok (image [⟨0x2B, 0, 0⟩, ⟨0x1C, 0, 0⟩]) := by decide
  have hload : { Machine.ofTwoDeepStack with memory := .zeros addressSpace }.load 0
      (image [⟨0x2B, 0, 0⟩, ⟨0x1C, 0, 0⟩]) = .ok .ofTwoDeepStack := rfl
  have htaken : (Machine.ofTwoDeepStack.stepTimes 4).1 = 4 := by decide
  have hresult : (Machine.ofTwoDeepStack.stepTimes 4).2.result = .ok () := by decide
  have hpc : (Machine.ofTwoDeepStack.stepTimes 4).2.machine.registers.pc = 3 := by decide
  have hleaves : Leaves 0 (image [⟨0x2B, 0, 0⟩, ⟨0x1C, 0, 0⟩])
      (Machine.ofTwoDeepStack.stepTimes 4).2.events := by decide +kernel
  have hfault : (Action.step (Machine.ofTwoDeepStack.stepTimes 4).2.machine).result =
      .error (.stackFault .overflow 15) := by decide
  rcases hsteps : Machine.ofTwoDeepStack.stepTimes 4 with ⟨taken, result, m', es⟩
  rw [hsteps] at htaken hresult hpc hleaves hfault
  obtain rfl : taken = 4 := htaken
  obtain rfl : result = .ok () := hresult
  obtain ⟨pcs, -, -, hrun⟩ := Machine.stepTimes_eq_ok_iff.1 hsteps
  obtain ⟨pointer, h⟩ | ⟨index, h, -⟩ := fault_of_step_of_assemble (k := 0) hassemble hload
    (Nat.le_refl _) hrun hleaves (by decide) (congrArg UInt16.toNat hpc) hfault
  · exact ⟨hassemble, m', es, rfl, _, pointer, hfault, h⟩
  · exact nomatch h

/-- A machine with four cells past the end of the address space. The image of a program that
copies A to W crosses that end, and the machine is about to perform its only instruction. -/
def Machine.ofMoveOnTheBorder : Machine where
  registers := { pc := 65535 }
  stack := .new 256 256
  programMemory := ⟨16384, 65536⟩
  state := .ready
  memory := (Memory.zeros 65540).putAll 65532 (image [⟨0x54, 1, 2⟩])

/-- **The operand bytes on the border** are fetched from the first two cells of memory, and
are no indices of registers. -/
theorem step_ofMoveOnTheBorder :
    assemble .standard "MOV A,W".toList = .ok (image [⟨0x54, 1, 2⟩]) ∧
      Machine.ofMoveOnTheBorder.programMemory.contains 65532 = true ∧
      { Machine.ofMoveOnTheBorder with memory := .zeros 65540 }.load 65532
        (image [⟨0x54, 1, 2⟩]) = .ok .ofMoveOnTheBorder ∧
      addressSpace ≤ Machine.ofMoveOnTheBorder.memory.size ∧
      Machine.ofMoveOnTheBorder.Steps [] [] .ofMoveOnTheBorder ∧
      Machine.ofMoveOnTheBorder.registers.pc.toNat = 65532 + 3 + 3 * 0 ∧
      (Action.step .ofMoveOnTheBorder).result = .error (.invalidRegister 0) := by
  have hcell : ∀ i, Machine.ofMoveOnTheBorder.memory.cell? i =
      if 65532 ≤ i ∧ i < 65538 ∧ i < 65540 then (image [⟨0x54, 1, 2⟩])[i - 65532]?
      else if i < 65540 then some 0 else none := fun i => by
    rw [Machine.ofMoveOnTheBorder, Memory.cell?_putAll, Memory.cell?_zeros]
    rfl
  have hfetched : Machine.ofMoveOnTheBorder.Fetches ⟨0x54, 0, 0⟩ :=
    ⟨hcell 65535, hcell 0, hcell 1⟩
  have hform : Form.ofOpcode? 0x54 = some ⟨.mov, .registerCoded⟩ := by decide
  refine ⟨by decide, by decide, rfl, ?_, .nil, rfl, ?_⟩
  · rw [Machine.ofMoveOnTheBorder, Memory.size_putAll]
    decide
  · rw [Action.step_eq hfetched hform]
    rfl

end EightBit
