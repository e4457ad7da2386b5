import EightBit.Proofs.Machine.Operand
import EightBit.Proofs.Machine.Step
import EightBit.Proofs.Source.Designation

/-!
# The assembler and the machine agree

The assembler turns what an operand designates into two bytes, and the machine turns
two bytes into a place to work on or an address to go on at. Neither knows of the
other, and between them are all the conventions that they have to share: which byte
of an address comes first, which one is ignored, what wraps around, and what a
distance is counted from.

`EightBit.Designation.Used` says, for each kind of designation and without a word
about bytes, what it means for a step to use just that. The main statement,
`EightBit.operand_used`, is that every step that succeeds on an instruction uses what
the source line of that instruction designates.
-/

namespace EightBit

/-- A line designates one thing at most. -/
theorem Designates.unique {p : Punctuation} {mnemonic : Mnemonic} {operands : List Text}
    {d d' : Designation} (h : Designates p mnemonic operands d)
    (h' : Designates p mnemonic operands d') : d = d' := by
  have hresolve := Operands.resolve_eq_ok_iff.2 ⟨d, h, rfl⟩
  have hresolve' := Operands.resolve_eq_ok_iff.2 ⟨d', h', rfl⟩
  have hoperands := Except.ok.inj (hresolve.symm.trans hresolve')
  have hd := d.decode?_operands
  rw [hoperands, d'.decode?_operands] at hd
  exact (Option.some.inj hd).symm

/-! ### What it means to use an operand -/

/-- The cell of the first page at a base and an index, wrapping around at its end. -/
def firstPage (base : Word) (index : Byte) : Word :=
  UInt16.ofNat ((base.toNat % 256 + index.toNat) % 256)

/-- **What it means for an operation to use what is designated**, from one machine to
another, with what can be watched of that. The program counter of the second machine
has still to move past the instruction, so a place to go on at is one instruction
ahead of it; a distance counts from the instruction itself. -/
def Designation.Used (operation : Operation) (m m' : Machine) (data : List Event) :
    Designation → Prop
  | nothing => operation.hasOperand = false
  | accumulator => operation.Uses (.register .a) m m' data
  | value v => operation.Uses (.value v) m m' data
  | cell address =>
    operation.Uses (.cell address) m m' data ∨
      (operation = .jump ∨ operation = .call) ∧ m'.registers.pc = address
  | pointer address => operation = .jump ∧ ∃ high low,
      m.memory.cell? address.toNat = some high ∧
      m.memory.cell? ((address.toNat + 1) % addressSpace) = some low ∧
      m'.registers.pc = Word.ofBytes high low ∧
      data = [.read address (some high), .read (address + 1) (some low)]
  | distance d => ∃ flag value, operation = .branch flag value ∧ data = [] ∧
      if m.registers.p.get flag = value then
        (m'.advanced.registers.pc.toNat : Int) =
          (m.registers.pc.toNat + d.signed) % addressSpace
      else m' = m
  | registers source target => operation = .move ∧ data = [] ∧
      m'.registers.get target = m.registers.get source
  | indexedW base => operation.Uses (.cell (firstPage base m.registers.w)) m m' data
  | indexedX base => operation.Uses (.cell (firstPage base m.registers.x)) m m' data

/-! ### How operations without a place of their own go -/

namespace Action

variable {m m' : Machine} {es : List Event} {mode : Mode} {first second : Byte} {place : Place}

/-- A jump goes on at its target. -/
theorem jump_eq_ok_iff {target : Word} (h : mode ≠ .absoluteIndirect) :
    jump mode target m = ⟨.ok (), m', es⟩ ↔
      { m with registers := { m.registers with pc := target } } = m' ∧ es = [] := by
  have hjump : jump mode target = setPC target := by
    cases mode with
    | absoluteIndirect => exact absurd rfl h
    | _ => rfl
  rw [hjump, setPC, updateRegisters_eq_ok_iff]

/-- An indirect jump goes on where two cells say. -/
theorem jump_indirect_eq_ok_iff {target : Word} :
    jump .absoluteIndirect target m = ⟨.ok (), m', es⟩ ↔
      ∃ high low, m.memory.cell? target.toNat = some high ∧
        m.memory.cell? (target + 1).toNat = some low ∧
        { m with registers := { m.registers with pc := Word.ofBytes high low } } = m' ∧
        es = [.read target (some high), .read (target + 1) (some low)] := by
  constructor
  · intro h
    obtain ⟨high, _, _, es₁, hread₁, hrest, hes⟩ := bind_eq_ok_iff.1 h
    obtain ⟨hhigh, rfl, rfl⟩ := read_eq_ok_iff.1 hread₁
    obtain ⟨low, _, _, es₂, hread₂, hset, hes₁⟩ := bind_eq_ok_iff.1 hrest
    obtain ⟨hlow, rfl, rfl⟩ := read_eq_ok_iff.1 hread₂
    obtain ⟨rfl, rfl⟩ := updateRegisters_eq_ok_iff.1 hset
    exact ⟨high, low, hhigh, hlow, rfl, by rw [hes, hes₁]; rfl⟩
  · rintro ⟨high, low, hhigh, hlow, rfl, rfl⟩
    rw [jump, bind_ok (read_ok hhigh), bind_ok (read_ok hlow)]
    rfl

/-- A call that succeeds goes on at its target. -/
theorem pc_of_call_eq_ok {target : Word} (h : call target m = ⟨.ok (), m', es⟩) :
    m'.registers.pc = target := by
  rw [call, pc, ask_bind] at h
  obtain ⟨_, m₁, es₁, es₂, -, hrest, -⟩ := bind_eq_ok_iff.1 h
  obtain ⟨_, m₂, es₃, es₄, -, hset, -⟩ := bind_eq_ok_iff.1 hrest
  obtain ⟨rfl, -⟩ := updateRegisters_eq_ok_iff.1 hset
  rfl

/-- Copying succeeds exactly if both indices name a register. -/
theorem move_eq_ok_iff :
    move first second m = ⟨.ok (), m', es⟩ ↔
      ∃ source target, Register.ofIndex? first = some source ∧
        Register.ofIndex? second = some target ∧
        { m with
          registers := (m.registers.copy source target).withResult (m.registers.get source) } = m' ∧
        es = [] := by
  rw [move]
  cases hsource : Register.ofIndex? first with
  | none =>
    constructor
    · exact fun h => absurd h fault_ne_ok
    · rintro ⟨_, _, h, -⟩
      exact nomatch h
  | some source =>
    cases htarget : Register.ofIndex? second with
    | none =>
      constructor
      · exact fun h => absurd h fault_ne_ok
      · rintro ⟨_, _, -, h, -⟩
        exact nomatch h
    | some target =>
      simp only
      rw [ask_bind, setRegister, updateRegisters_eq_ok_iff]
      constructor
      · rintro ⟨rfl, rfl⟩
        exact ⟨source, target, rfl, rfl, rfl, rfl⟩
      · rintro ⟨source', target', hsource', htarget', rfl, rfl⟩
        cases hsource'
        cases htarget'
        exact ⟨rfl, rfl⟩

end Action

/-- A distance counts from the instruction, whichever way it goes. -/
theorem toNat_add_extend (pc : Word) (d : Byte) :
    ((pc + d.extend - 3 + 3).toNat : Int) = (pc.toNat + d.signed) % addressSpace := by
  obtain ⟨hlow, hhigh⟩ := d.signed_bounds
  rw [UInt16.sub_add_cancel, UInt16.toNat_add, Byte.extend, addressSpace]
  simp only [UInt16.ofInt, UInt16.toNat_ofNat']
  omega

/-- The sum of a base and an index wraps around within the first page. -/
theorem ofBytes_zero_add (base : Word) (index : Byte) :
    Word.ofBytes 0 (base.low + index) = firstPage base index := by
  rw [← UInt16.toNat_inj, Word.toNat_ofBytes, UInt8.toNat_add, Word.toNat_low, firstPage,
    UInt16.toNat_ofNat']
  simp only [UInt8.toNat_zero]
  omega

/-! ### Instructions use what they encode -/

/-- The mode and the operand bytes of a designation lead to the place it is about. -/
theorem Designation.used_of_perform {d : Designation} {mnemonic : Mnemonic} {opcode : Byte}
    {m m' : Machine} {data : List Event}
    (hopcode : Form.ofOpcode? opcode = some ⟨mnemonic, d.operands.mode⟩)
    (h : Action.perform mnemonic.operation d.operands.mode d.operands.first d.operands.second
      (d.operands.mode.place m.registers d.operands.first d.operands.second) m =
        ⟨.ok (), m', data⟩) : d.Used mnemonic.operation m m' data := by
  have hsuits := suits_of_ofOpcode? hopcode
  generalize mnemonic.operation = operation at h hsuits
  cases d with
  | nothing => exact Mode.hasOperand_of_suits_implicit hsuits
  | accumulator =>
    have hplace := Mode.hasOperand_of_suits (Or.inl rfl) hsuits
    exact (Action.perform_eq_ok_iff_of_hasOperand hplace).1 h
  | value v =>
    have hplace := Mode.hasOperand_of_suits (Or.inr (Or.inl rfl)) hsuits
    exact (Action.perform_eq_ok_iff_of_hasOperand hplace).1 h
  | cell address =>
    -- Jumps and calls come in the same mode, but they do nothing to the cell.
    simp only [operands, Mode.place, Word.ofBytes_high_low] at h
    rcases Mode.jump_or_call_of_suits_absolute hsuits with hplace | rfl | rfl
    · exact Or.inl ((Action.perform_eq_ok_iff_of_hasOperand hplace).1 h)
    · rw [Action.perform, Action.jump_eq_ok_iff (by decide)] at h
      obtain ⟨rfl, -⟩ := h
      exact Or.inr ⟨Or.inl rfl, Word.ofBytes_high_low address⟩
    · refine Or.inr ⟨Or.inr rfl, ?_⟩
      rw [Action.pc_of_call_eq_ok h, Word.ofBytes_high_low]
  | pointer address =>
    obtain rfl := Mode.eq_jump_of_suits_absoluteIndirect hsuits
    simp only [operands, Action.perform, Word.ofBytes_high_low] at h
    obtain ⟨high, low, hhigh, hlow, rfl, hes⟩ := Action.jump_indirect_eq_ok_iff.1 h
    refine ⟨rfl, high, low, hhigh, ?_, rfl, hes⟩
    rw [← hlow, UInt16.toNat_add]
    rfl
  | distance d =>
    obtain ⟨flag, value, rfl⟩ := Mode.branch_of_suits_relative hsuits
    rw [Action.perform, Action.branch, Action.updateRegisters_eq_ok_iff] at h
    obtain ⟨rfl, rfl⟩ := h
    refine ⟨flag, value, rfl, rfl, ?_⟩
    split
    · -- The branch has taken off what moving past the instruction adds.
      exact toNat_add_extend m.registers.pc d
    · rfl
  | registers source target =>
    obtain rfl := Mode.eq_move_of_suits_registerCoded hsuits
    obtain ⟨source', target', hsource, htarget, rfl, rfl⟩ := Action.move_eq_ok_iff.1 h
    simp only [operands, Register.ofIndex?_index, Option.some.injEq] at hsource htarget
    subst hsource htarget
    refine ⟨rfl, rfl, ?_⟩
    exact Registers.get_set_self _ _ _
  | indexedW base =>
    have hplace := Mode.hasOperand_of_suits (Or.inr (Or.inr (Or.inl rfl))) hsuits
    have huses := (Action.perform_eq_ok_iff_of_hasOperand hplace).1 h
    simp only [operands, Mode.place, ofBytes_zero_add] at huses
    exact huses
  | indexedX base =>
    have hplace := Mode.hasOperand_of_suits (Or.inr (Or.inr (Or.inr rfl))) hsuits
    have huses := (Action.perform_eq_ok_iff_of_hasOperand hplace).1 h
    simp only [operands, Mode.place, ofBytes_zero_add] at huses
    exact huses

/-- **A step uses what its source line designates.** Whatever line of source text the
instruction at the program counter was assembled from, in whatever punctuation: that
line starts with a mnemonic, its operands designate one thing, and a step that
succeeds fetches the instruction, has the operation of the mnemonic use just what is
designated, and moves on. -/
theorem operand_used {p : Punctuation} {line : Text} {t : Triple} {m m' : Machine}
    {es : List Event} (hline : assembleLine p line = .ok (some t)) (ht : m.Fetches t)
    (hstep : Action.step m = ⟨.ok (), m', es⟩) :
    ∃ name operands mnemonic d, tokens (code p.comment line) = name :: operands ∧
      Mnemonic.ofText? name = some mnemonic ∧
      (∀ d', Designates p mnemonic operands d' ↔ d' = d) ∧
      ∃ m₁ data, d.Used mnemonic.operation m m₁ data ∧ m' = m₁.advanced ∧
        es = m.fetchEvents t ++ data ++ [.advance m₁.advanced.registers.pc] := by
  obtain ⟨name, operands, mnemonic, d, htokens, hname, hd, hencodes⟩ :=
    assembleLine_eq_ok_some_iff.1 hline
  obtain ⟨form, m₁, data, hform, hperform, hm', hes⟩ :=
    (Action.step_eq_ok_iff_of_fetches ht).1 hstep
  obtain rfl := Option.some.inj (hencodes.opcode.symm.trans hform)
  rw [hencodes.first, hencodes.second] at hperform
  refine ⟨name, operands, mnemonic, d, htokens, hname, fun d' => ?_, m₁, data,
    Designation.used_of_perform hencodes.opcode hperform, hm', hes⟩
  constructor
  · exact fun hd' => hd'.unique hd
  · rintro rfl
    exact hd

/-- A machine of four cells, about to load A from a base past the first page. -/
def Machine.ofFourCells : Machine where
  registers := { w := 5 }
  stack := .new 0 4
  programMemory := ⟨0, 4⟩
  state := .running
  memory := { size := 4, stored := #[2, 0xFE, 0x12, 0xAB] }

/-- Neither the high byte of the base nor the carry out of the sum makes a difference:
the cell is the last of the four. -/
theorem operand_used_ofFourCells :
    assembleLine .standard "LDA $12FE, W".toList = .ok (some ⟨2, 0xFE, 0x12⟩) ∧
      Machine.ofFourCells.Fetches ⟨2, 0xFE, 0x12⟩ ∧
      ∃ m' es, Action.step .ofFourCells = ⟨.ok (), m', es⟩ ∧
        firstPage 0x12FE Machine.ofFourCells.registers.w = 3 ∧
        ∃ m₁ data, (Designation.indexedW 0x12FE).Used (.load .a) .ofFourCells m₁ data ∧
          m' = m₁.advanced := by
  have hline : assembleLine .standard "LDA $12FE, W".toList =
      .ok (some ⟨2, 0xFE, 0x12⟩) := by decide
  have ht : Machine.ofFourCells.Fetches ⟨2, 0xFE, 0x12⟩ := ⟨by decide, by decide, by decide⟩
  have hresult : (Action.step .ofFourCells).result = .ok () := by decide
  rcases hstep : Action.step .ofFourCells with ⟨result, m', es⟩
  rw [hstep] at hresult
  obtain rfl : result = .ok () := hresult
  obtain ⟨name, operands, mnemonic, d, htokens, hname, hd, m₁, data, hused, hm', -⟩ :=
    operand_used hline ht hstep
  cases htokens
  obtain rfl : .lda = mnemonic := Option.some.inj hname
  have hindexed : Designates .standard .lda ["$12FE".toList, "W".toList] (.indexedW 0x12FE) :=
    .indexedW (l := .word 0x12FE) rfl (Or.inl rfl) (by decide)
  obtain rfl := (hd _).1 hindexed
  exact ⟨hline, ht, m', es, rfl, by decide, m₁, data, hused, hm'⟩

end EightBit
