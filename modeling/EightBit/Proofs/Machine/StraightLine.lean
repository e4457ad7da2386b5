import EightBit.Proofs.Machine.Starting
import EightBit.Proofs.Machine.Steps
import EightBit.Proofs.Machine.Trail
import EightBit.Proofs.Source.Program

/-!
# Straight-line programs

A program without transfers of control can only be run from its first instruction to
its last one, and that it does as long as it leaves its own image alone: the program
counter goes up by the width of an instruction with every step
(`EightBit.Machine.Steps.pcs_eq`), and what it finds there is the next instruction of
the program, because no write that can be watched has touched it.

Where the run ends is another matter. It ends when the program counter has reached the
number just past the last instruction, so there has to be an address with that number.
If the image stops short of the end of the address space there is one, and the run is
over after as many steps as there are instructions; if it does not, the program counter
wraps around before it gets there and the run is never over
(`EightBit.execute_straightLine`).
-/

namespace EightBit

/-- **Whether an instruction transfers control**: whether it is a jump, a call, a return
or a branch. -/
def Triple.transfers (t : Triple) : Bool :=
  match Form.ofOpcode? t.opcode with
  | some form => form.mnemonic.operation.transfers
  | none => false

/-- The machine as it is, but about to perform the instruction at an address. -/
def Machine.goto (m : Machine) (address : Word) : Machine :=
  { m with registers := { m.registers with pc := address } }

@[simp] theorem Machine.pc_goto (m : Machine) (address : Word) :
    (m.goto address).registers.pc = address := rfl

@[simp] theorem Machine.memory_goto (m : Machine) (address : Word) :
    (m.goto address).memory = m.memory := rfl

/-! ### One instruction -/

/-- A sum of words that an address can hold does not wrap around. -/
theorem toNat_add_of_lt_addressSpace {address offset : Word}
    (h : address.toNat + offset.toNat < addressSpace) :
    (address + offset).toNat = address.toNat + offset.toNat := by
  rw [UInt16.toNat_add]
  exact Nat.mod_eq_of_lt h

/-- **An instruction that does not transfer control is followed by the next one.** -/
theorem Action.pc_of_step_eq_ok {m m' : Machine} {t : Triple} {es : List Event}
    (ht : m.Fetches t) (htransfers : t.transfers = false) (h : step m = ⟨.ok (), m', es⟩) :
    m'.registers.pc = m.registers.pc + 3 := by
  obtain ⟨form, m₁, data, hform, hperform, rfl, -⟩ := (step_eq_ok_iff_of_fetches ht).1 h
  rw [Triple.transfers, hform] at htransfers
  have hpc : (perform form.mnemonic.operation form.mode t.first t.second
      (form.mode.place m.registers t.first t.second) m).machine.registers.pc = m.registers.pc :=
    pc_perform_of_not_transfers htransfers m
  rw [hperform] at hpc
  rw [Machine.pc_advanced, hpc]

/-- **An instruction that is no jump, call or return** is followed by the next one, or by the one
at its distance if it is a branch. -/
theorem Action.pc_of_step_cases {m m' : Machine} {t : Triple} {form : Form} {es : List Event}
    (ht : m.Fetches t) (hform : Form.ofOpcode? t.opcode = some form)
    (hjump : form.mnemonic.operation ≠ .jump) (hcall : form.mnemonic.operation ≠ .call)
    (hback : form.mnemonic.operation ≠ .comeBack) (h : step m = ⟨.ok (), m', es⟩) :
    m'.registers.pc = m.registers.pc + 3 ∨
      (∃ flag value, form.mnemonic.operation = .branch flag value) ∧
        m'.registers.pc = m.registers.pc + t.first.extend - 3 + 3 := by
  cases htransfers : form.mnemonic.operation.transfers with
  | false =>
    refine Or.inl (pc_of_step_eq_ok ht ?_ h)
    rw [Triple.transfers, hform]
    exact htransfers
  | true =>
    obtain ⟨form', m₁, data, hform', hperform, rfl, -⟩ := (step_eq_ok_iff_of_fetches ht).1 h
    obtain rfl := Option.some.inj (hform.symm.trans hform')
    generalize form.mnemonic.operation = operation at *
    cases operation with
    | branch flag value =>
      obtain ⟨rfl, -⟩ := updateRegisters_eq_ok_iff.1 hperform
      rw [Machine.pc_advanced]
      dsimp only
      split
      · exact Or.inr ⟨⟨flag, value, rfl⟩, rfl⟩
      · exact Or.inl rfl
    | jump => exact absurd rfl hjump
    | call => exact absurd rfl hcall
    | comeBack => exact absurd rfl hback
    | _ => exact nomatch htransfers

/-- The instruction that stands where the program counter is, not too close to the end
of the address space, is the one that is fetched. -/
theorem Machine.fetches_of_holds {m : Machine} {t : Triple}
    (h : m.memory.Holds m.registers.pc.toNat t.bytes)
    (hfits : m.registers.pc.toNat + 2 < addressSpace) : m.Fetches t := by
  have hone : m.registers.pc.toNat + (1 : Word).toNat < addressSpace :=
    Nat.lt_of_le_of_lt (Nat.add_le_add_left (by decide) _) hfits
  obtain ⟨hopcode, hrest⟩ := Memory.holds_cons.1 h
  obtain ⟨hfirst, hrest⟩ := Memory.holds_cons.1 hrest
  obtain ⟨hsecond, -⟩ := Memory.holds_cons.1 hrest
  refine ⟨hopcode, ?_, ?_⟩
  · rw [toNat_add_of_lt_addressSpace hone]
    exact hfirst
  · rw [toNat_add_of_lt_addressSpace hfits]
    exact hsecond

/-! ### All instructions in a row -/

/-- **As many steps in a row as a straight-line program has instructions** are those
instructions in order, if nothing is written to where the program stands. -/
theorem Machine.Steps.pcs_eq {program : List Triple} {pcs : List Word} {m m' : Machine}
    {es : List Event} (h : Steps pcs m es m') (hlength : pcs.length = program.length)
    (htransfers : ∀ t ∈ program, t.transfers = false)
    (hholds : m.memory.Holds m.registers.pc.toNat (program.flatMap Triple.bytes))
    (hfits : m.registers.pc.toNat + 3 * program.length < addressSpace)
    (hunwritten : ∀ i, m.registers.pc.toNat ≤ i →
      i < m.registers.pc.toNat + 3 * program.length → Unwritten i es) :
    pcs.map UInt16.toNat = List.range' m.registers.pc.toNat program.length 3 ∧
      m'.registers.pc.toNat = m.registers.pc.toNat + 3 * program.length := by
  induction program generalizing pcs m es with
  | nil =>
    obtain rfl := List.eq_nil_of_length_eq_zero hlength
    cases h
    exact ⟨rfl, rfl⟩
  | cons t program ih =>
    cases h with
    | nil => exact nomatch hlength
    | @cons pcs m m₁ m' es es' hstep hrest =>
      rw [List.flatMap_cons] at hholds
      rw [List.length_cons] at hfits hunwritten
      obtain ⟨ht, htransfers⟩ := List.forall_mem_cons.1 htransfers
      have hwidth : m.registers.pc.toNat + 3 < addressSpace := by omega
      have hfetches := Machine.fetches_of_holds (Memory.holds_append.1 hholds).1 (by omega)
      have hpc : m₁.registers.pc.toNat = m.registers.pc.toNat + 3 := by
        rw [Action.pc_of_step_eq_ok hfetches ht hstep]
        exact toNat_add_of_lt_addressSpace hwidth
      -- The rest of the program has not been touched by the first step.
      have hcells : ∀ i, m.registers.pc.toNat ≤ i →
          i < m.registers.pc.toNat + 3 * (program.length + 1) →
            m₁.memory.cell? i = m.memory.cell? i := by
        intro i hle hlt
        have hi := (unwritten_append.1 (hunwritten i hle hlt)).1
        have hcell : (Action.step m).machine.memory.cell? i = m.memory.cell? i :=
          Action.cell?_step_of_unwritten (by rwa [hstep])
        rwa [hstep] at hcell
      have hthere : m₁.memory.Holds m₁.registers.pc.toNat (program.flatMap Triple.bytes) := by
        rw [hpc]
        refine (Memory.holds_append.1 hholds).2.of_cells fun i hle hlt => hcells i ?_ ?_
        · exact Nat.le_trans (Nat.le_add_right _ 3) hle
        · rw [length_flatMap_bytes] at hlt
          change i < m.registers.pc.toNat + 3 + _ at hlt
          omega
      obtain ⟨hpcs, hend⟩ := ih hrest (Nat.succ.inj hlength) htransfers hthere (by omega)
        fun i hle hlt => (unwritten_append.1 (hunwritten i (by omega) (by omega))).2
      rw [hpc] at hpcs hend
      refine ⟨?_, by rw [hend, List.length_cons]; omega⟩
      rw [List.map_cons, hpcs, List.length_cons, List.range'_succ]

/-! ### From the source text to the end of the run -/

/-- **An image that has just the length that it announces is started**, if there is an address
for what follows its header. -/
theorem Action.start_of_holds {high low : Byte} {body : List Byte} {m : Machine} {address : Word}
    (hlength : body.length = (Word.ofBytes high low).toNat)
    (hregion : m.programMemory.contains address.toNat = true)
    (hholds : m.memory.Holds address.toNat (headerMarker :: high :: low :: body))
    (hfirst : address.toNat + 3 < min m.memory.size addressSpace) :
    start address m = ⟨.ok (address.toNat + (body.length + 3)),
      (m.goto (address + 3)).inState .running, headerEvents address high low⟩ := by
  change m.memory.Holds _ ([headerMarker, high, low] ++ body) at hholds
  obtain ⟨hthree, -⟩ := Memory.holds_append.1 hholds
  refine start_eq_ok_iff.2 ⟨hregion, hfirst, high, low, hthree, ?_, rfl, rfl⟩
  omega

/-- **The program as it has been loaded is started**, if there is an address for its
first instruction. -/
theorem Action.start_image {program : List Triple} {m : Machine} {address : Word}
    (hlength : 3 * program.length ≤ maxBodyLength)
    (hregion : m.programMemory.contains address.toNat = true)
    (hholds : m.memory.Holds address.toNat (image program))
    (hfirst : address.toNat + 3 < min m.memory.size addressSpace) :
    ∃ high low, 3 * program.length = (Word.ofBytes high low).toNat ∧
      start address m = ⟨.ok (address.toNat + (image program).length),
        (m.goto (address + 3)).inState .running, headerEvents address high low⟩ := by
  obtain ⟨high, low, hheader⟩ := exists_header hlength
  have hbody : (program.flatMap Triple.bytes).length = (Word.ofBytes high low).toNat := by
    rw [length_flatMap_bytes, hheader]
  rw [image_eq hheader] at hholds ⊢
  exact ⟨high, low, hheader, start_of_holds hbody hregion hholds hfirst⟩

/-- A run of a program whose image ends past the address space does not halt, if it
gets started at all. -/
theorem Machine.ending_execute_image_ne_halted {program : List Triple} {m : Machine}
    {address : Word} (hlength : 3 * program.length ≤ maxBodyLength)
    (hholds : m.memory.Holds address.toNat (image program))
    (hend : addressSpace ≤ address.toNat + (image program).length) (budget : Nat) :
    (m.execute .never budget address).ending ≠ .halted := by
  rw [execute]
  rcases hstart : Action.start address m with ⟨fault | stop, m₁, es₁⟩
  · exact Ending.noConfusion
  · obtain ⟨hregion, hfirst, -⟩ := Action.start_eq_ok_iff.1 hstart
    obtain ⟨high, low, -, hstart'⟩ := Action.start_image hlength hregion hholds hfirst
    obtain rfl : address.toNat + (image program).length = stop := by
      rw [hstart] at hstart'
      cases hstart'
      rfl
    exact ending_runFrom_ne_halted hend _ _ _ _

/-- A run of a straight-line program whose image ends short of the end of the address
space takes the steps of its instructions and halts. -/
theorem Machine.execute_image_eq {program : List Triple} {pcs : List Word} {m m' : Machine}
    {address : Word} {es : List Event} (hlength : 3 * program.length ≤ maxBodyLength)
    (hne : program ≠ []) (htransfers : ∀ t ∈ program, t.transfers = false)
    (hregion : m.programMemory.contains address.toNat = true)
    (hholds : m.memory.Holds address.toNat (image program))
    (hsteps : Steps pcs (m.goto (address + 3)) es m') (hpcs : pcs.length = program.length)
    (hunwritten : ∀ i, address.toNat ≤ i → i < address.toNat + (image program).length →
      Unwritten i es)
    (hend : address.toNat + (image program).length < addressSpace) :
    pcs.map UInt16.toNat = List.range' (address.toNat + 3) program.length 3 ∧
      ∃ high low, ∀ budget, program.length ≤ budget → m.execute .never budget address =
        ⟨.halted, m'.inState .halted, pcs, Action.headerEvents address high low ++ es⟩ := by
  have hpos := List.length_pos_iff.2 hne
  have hsize := hholds.le_size (List.ne_nil_of_length_pos (by rw [length_image]; omega))
  rw [length_image] at hsize hend hunwritten
  obtain ⟨high, low, hheader, hstart⟩ :=
    Action.start_image hlength hregion hholds (by omega)
  rw [length_image] at hstart
  have hroom : address.toNat + 3 < addressSpace := by omega
  have hfirst : (address + 3).toNat = address.toNat + 3 := toNat_add_of_lt_addressSpace hroom
  have hbody : m.memory.Holds (address.toNat + 3) (program.flatMap Triple.bytes) :=
    (Memory.holds_append.1 hholds).2
  obtain ⟨haddresses, hpc⟩ := hsteps.pcs_eq hpcs htransfers
    (by rw [pc_goto, hfirst]; exact hbody)
    (by rw [pc_goto, hfirst]; omega)
    fun i hle hlt => by
      rw [pc_goto, hfirst] at hle hlt
      exact hunwritten i (by omega) (by omega)
  rw [pc_goto, hfirst] at haddresses hpc
  refine ⟨haddresses, high, low, fun budget hbudget => ?_⟩
  -- Every instruction stands short of the end of the program.
  have hstop : ∀ pc ∈ pcs, pc.toNat < address.toNat + (3 + 3 * program.length) := by
    intro pc hmem
    have hmem' := List.mem_map_of_mem (f := UInt16.toNat) hmem
    rw [haddresses, List.mem_range'] at hmem'
    obtain ⟨i, hi, hpc⟩ := hmem'
    omega
  obtain ⟨spare, rfl⟩ := Nat.exists_eq_add_of_le hbudget
  rw [execute, hstart, ← hpcs]
  refine ((hsteps.inState .running).runFrom_eq (by rwa [hpcs]) spare [] _).trans ?_
  rw [runFrom_eq_of_le (by rw [hpcs]; change _ ≤ m'.registers.pc.toNat; omega)]
  simp [inState]

/-- **A straight-line program runs to its end exactly if its image ends short of the end
of the address space.** Take any source text that is assembled to at least one
instruction and to no transfer of control, loaded anywhere in program memory, and
suppose that its instructions, stepped once each from the first one on, raise no fault
and write nothing to where the image stands. If the image ends in time, a run takes
just these steps, one poll for each instruction in order, and halts with what they leave
behind; if it does not, no run of it ever halts. -/
theorem execute_straightLine {p : Punctuation} {source : Text} {program : List Triple}
    {m₀ m m' : Machine} {address : Word} {es : List Event}
    (hassemble : assemble p source = .ok (image program)) (hne : program ≠ [])
    (htransfers : ∀ t ∈ program, t.transfers = false)
    (hregion : m₀.programMemory.contains address.toNat = true)
    (hload : m₀.load address.toNat (image program) = .ok m)
    (hsteps : (m.goto (address + 3)).stepTimes program.length =
      (program.length, ⟨.ok (), m', es⟩))
    (hunwritten : ∀ i, address.toNat ≤ i → i < address.toNat + (image program).length →
      Unwritten i es) :
    (address.toNat + (image program).length < addressSpace →
      ∃ polls high low, polls.map UInt16.toNat =
          List.range' (address.toNat + 3) program.length 3 ∧
        ∀ budget, program.length ≤ budget → m.execute .never budget address =
          ⟨.halted, m'.inState .halted, polls, Action.headerEvents address high low ++ es⟩) ∧
    (addressSpace ≤ address.toNat + (image program).length →
      ∀ budget, (m.execute .never budget address).ending ≠ .halted) := by
  obtain ⟨program', -, hlength, himage⟩ := assemble_eq_ok_iff.1 hassemble
  have hlengths := congrArg List.length himage
  rw [length_image, length_image] at hlengths
  obtain ⟨memory, hmemory, hm⟩ := Machine.load_eq_ok_iff.1 hload
  have hholds : m.memory.Holds address.toNat (image program) :=
    hm ▸ Memory.holds_of_load_eq_ok hmemory
  have hloaded : m.programMemory.contains address.toNat = true := hm ▸ hregion
  obtain ⟨pcs, hpcs, -, hsteps⟩ := Machine.stepTimes_eq_ok_iff.1 hsteps
  constructor
  · intro hend
    obtain ⟨haddresses, high, low, hexecute⟩ := Machine.execute_image_eq (by omega) hne htransfers
      hloaded hholds hsteps hpcs hunwritten hend
    exact ⟨pcs, high, low, haddresses, hexecute⟩
  · exact Machine.ending_execute_image_ne_halted (by omega) hholds

/-- A machine of sixteen cells, with a program of two instructions in the first nine of
them: the second one writes to the last cell of all. -/
def Machine.ofSixteenCells : Machine where
  registers := {}
  stack := .new 12 4
  programMemory := ⟨0, 12⟩
  state := .ready
  memory := (Memory.zeros 16).putAll 0 (image [⟨0x04, 5, 0⟩, ⟨0x11, 0, 15⟩])

/-- The run is over after two polls, and the last cell has been written. -/
theorem execute_straightLine_ofSixteenCells :
    assemble .standard "LDA #5\nSTA 15".toList =
        .ok (image [⟨0x04, 5, 0⟩, ⟨0x11, 0, 15⟩]) ∧
      ∃ m' es, (Machine.ofSixteenCells.goto 3).stepTimes 2 = (2, ⟨.ok (), m', es⟩) ∧
        m'.memory.cell? 15 = some 5 ∧
        (Machine.ofSixteenCells.execute .never 2 0).machine = m'.inState .halted := by
  have hassemble : assemble .standard "LDA #5\nSTA 15".toList =
      .ok (image [⟨0x04, 5, 0⟩, ⟨0x11, 0, 15⟩]) := by decide
  have hload : { Machine.ofSixteenCells with memory := .zeros 16 }.load (0 : Word).toNat
      (image [⟨0x04, 5, 0⟩, ⟨0x11, 0, 15⟩]) = .ok .ofSixteenCells := rfl
  have htaken : ((Machine.ofSixteenCells.goto 3).stepTimes 2).1 = 2 := by decide
  have hresult : ((Machine.ofSixteenCells.goto 3).stepTimes 2).2.result = .ok () := by decide
  have hcell : ((Machine.ofSixteenCells.goto 3).stepTimes 2).2.machine.memory.cell? 15 =
      some 5 := by decide
  have hunwritten : ∀ i < 9,
      Unwritten i ((Machine.ofSixteenCells.goto 3).stepTimes 2).2.events := by decide
  rcases hsteps : (Machine.ofSixteenCells.goto 3).stepTimes 2 with ⟨taken, result, m', es⟩
  rw [hsteps] at htaken hresult hcell hunwritten
  obtain rfl : taken = 2 := htaken
  obtain rfl : result = .ok () := hresult
  obtain ⟨polls, high, low, -, hexecute⟩ := (execute_straightLine hassemble (by decide) (by decide)
    (by decide) hload hsteps fun i _ hi => hunwritten i hi).1 (by decide)
  exact ⟨hassemble, m', es, rfl, hcell, by rw [hexecute 2 (by decide)]⟩

end EightBit
