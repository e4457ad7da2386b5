import EightBit.Proofs.Machine.Agreement
import EightBit.Proofs.Machine.StraightLine

/-!
# Operands that are always there

In a memory that spans the address space there is a cell at every address. The byte in it can
then be spoken of without saying where it comes from (`EightBit.Memory.byte`), every place that an
operand can be in exists (`EightBit.Place.exists_value?`), and an instruction that does no more
than to use its operand cannot fail: a step that finds one is what it makes of the operand, and the
next instruction (`EightBit.Action.exists_step_of_uses`).

Calculations in memory are made of such instructions, with the address of a cell in each
(`EightBit.Mnemonic.on`).
-/

namespace EightBit

namespace Memory

/-- **The byte at an address**, where there is a cell at every address. -/
def byte (m : Memory) (address : Word) : Byte :=
  (m.cell? address.toNat).getD 0

/-- The bytes at some addresses. -/
def bytes (m : Memory) (addresses : List Word) : List Byte :=
  addresses.map m.byte

variable {m : Memory}

theorem bytes_cons (address : Word) (addresses : List Word) :
    m.bytes (address :: addresses) = m.byte address :: m.bytes addresses := rfl

/-- There is a cell at every address. -/
theorem lt_size_of_spans (h : addressSpace ≤ m.size) (address : Word) : address.toNat < m.size :=
  Nat.lt_of_lt_of_le address.toNat_lt h

theorem cell?_eq_byte (h : addressSpace ≤ m.size) (address : Word) :
    m.cell? address.toNat = some (m.byte address) := by
  have hcell := isSome_cell?_iff.2 (lt_size_of_spans h address)
  obtain ⟨v, hv⟩ := Option.isSome_iff_exists.1 hcell
  rw [byte, hv, Option.getD_some]

/-- The byte that has been put is there. -/
theorem byte_put_self (h : addressSpace ≤ m.size) (address : Word) (v : Byte) :
    (m.put address.toNat v).byte address = v := by
  rw [byte, cell?_put, if_pos ⟨rfl, lt_size_of_spans h address⟩, Option.getD_some]

/-- The others are as they were. -/
theorem byte_put_of_ne {address other : Word} (h : address ≠ other) (v : Byte) :
    (m.put address.toNat v).byte other = m.byte other := by
  rw [byte, byte, cell?_put, if_neg fun heq => h (UInt16.toNat_inj.1 heq.1)]

/-- A run of bytes stays where it stands as long as nothing is put there. -/
theorem Holds.put_of_clear {start : Nat} {values : List Byte} (h : m.Holds start values)
    {address : Word}
    (hclear : ¬(start ≤ address.toNat ∧ address.toNat < start + values.length)) (v : Byte) :
    (m.put address.toNat v).Holds start values := by
  refine h.of_cells fun i hle hlt => ?_
  rw [cell?_put, if_neg]
  rintro ⟨rfl, -⟩
  exact hclear ⟨hle, hlt⟩

end Memory

/-- **Every place exists.** -/
theorem Place.exists_value? {m : Machine} (h : addressSpace ≤ m.memory.size) (place : Place) :
    ∃ v, place.value? m = some v := by
  cases place with
  | register r => exact ⟨m.registers.get r, rfl⟩
  | value v => exact ⟨v, rfl⟩
  | cell address => exact ⟨m.memory.byte address, Memory.cell?_eq_byte h address⟩

/-- In a cell there is the byte at its address. -/
theorem Place.value?_cell {m : Machine} (h : addressSpace ≤ m.memory.size) (address : Word) :
    (cell address).value? m = some (m.memory.byte address) :=
  Memory.cell?_eq_byte h address

/-- **A step on an instruction that uses its operand** is what it makes of the operand. -/
theorem Action.exists_step_of_uses {m m' : Machine} {t : Triple} {form : Form} {data : List Event}
    (ht : m.Fetches t) (hform : Form.ofOpcode? t.opcode = some form)
    (hoperand : form.mnemonic.operation.hasOperand = true)
    (huses : form.mnemonic.operation.Uses (form.mode.place m.registers t.first t.second)
      m m' data) :
    ∃ es, step m = ⟨.ok (), m'.advanced, es⟩ :=
  ⟨_, (step_eq_ok_iff_of_fetches ht).2 ⟨form, m', data, hform,
    (perform_eq_ok_iff_of_hasOperand hoperand).2 huses, rfl, rfl⟩⟩

/-! ### Instructions on cells -/

namespace Mnemonic

/-- **The instruction with a mnemonic on the cell at an address.** -/
def on (mnemonic : Mnemonic) (address : Word) : Triple where
  opcode := (Form.opcode? ⟨mnemonic, .absolute⟩).getD 0
  first := address.high
  second := address.low

variable {mnemonic : Mnemonic}

/-- The instruction is the one that a source line with this address stands for. -/
theorem encodes_on (h : mnemonic.hasMode .absolute = true) (address : Word) :
    (mnemonic.on address).Encodes mnemonic (.cell address) := by
  obtain ⟨opcode, hopcode⟩ := Option.isSome_iff_exists.1 h
  refine ⟨?_, rfl, rfl⟩
  rw [on, hopcode]
  exact Form.ofOpcode?_eq_some_iff.2 hopcode

/-- **A step on it uses the cell.** -/
theorem exists_step_on {m m' : Machine} {address : Word} {data : List Event}
    (hmode : mnemonic.hasMode .absolute = true) (hoperand : mnemonic.operation.hasOperand = true)
    (ht : m.Fetches (mnemonic.on address))
    (huses : mnemonic.operation.Uses (.cell address) m m' data) :
    ∃ es, Action.step m = ⟨.ok (), m'.advanced, es⟩ := by
  have hcell : mnemonic.operation.Uses (.cell (Word.ofBytes address.high address.low)) m m'
      data := by
    rwa [Word.ofBytes_high_low]
  exact Action.exists_step_of_uses ht (encodes_on hmode address).opcode hoperand hcell

end Mnemonic

end EightBit
