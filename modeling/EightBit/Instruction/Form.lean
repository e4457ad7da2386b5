import EightBit.Instruction.Mnemonic
import EightBit.Instruction.Mode

/-!
# The instruction table

An instruction form is a mnemonic together with an addressing mode. The machine
knows ninety-one of them, and the **opcode** of a form is its place in the table
`EightBit.Form.table`. No form stands in it twice, so decoding an opcode and
encoding a form undo each other (`EightBit.Form.ofOpcode?_eq_some_iff`).
-/

namespace EightBit

/-- The number of bytes in every instruction. -/
def instructionWidth : Nat := 3

/-- **An instruction form**: what is done, and what its operand bytes mean. -/
structure Form where
  mnemonic : Mnemonic
  mode : Mode
deriving DecidableEq, Repr

namespace Form

open Mnemonic Mode in
/-- **The instruction table**, in the order of opcodes. -/
def table : List Form :=
  [ ⟨nop, implicit⟩,
    ⟨lda, absolute⟩, ⟨lda, indexedW⟩, ⟨lda, indexedX⟩, ⟨lda, immediate⟩,
    ⟨ldw, absolute⟩, ⟨ldw, indexedX⟩, ⟨ldw, immediate⟩,
    ⟨ldx, absolute⟩, ⟨ldx, indexedW⟩, ⟨ldx, immediate⟩,
    ⟨ldy, absolute⟩, ⟨ldy, indexedW⟩, ⟨ldy, immediate⟩,
    ⟨ldz, absolute⟩, ⟨ldz, indexedW⟩, ⟨ldz, immediate⟩,
    ⟨sta, absolute⟩, ⟨sta, indexedW⟩, ⟨sta, indexedX⟩,
    ⟨stw, absolute⟩, ⟨stw, indexedX⟩,
    ⟨stx, absolute⟩, ⟨stx, indexedW⟩,
    ⟨sty, absolute⟩, ⟨sty, indexedW⟩,
    ⟨stz, absolute⟩, ⟨stz, indexedW⟩,
    ⟨jmp, absolute⟩, ⟨jmp, absoluteIndirect⟩,
    ⟨jfn, absolute⟩, ⟨ret, implicit⟩,
    ⟨bcc, relative⟩, ⟨bcs, relative⟩, ⟨bne, relative⟩, ⟨beq, relative⟩, ⟨brp, relative⟩,
    ⟨brn, relative⟩,
    ⟨clc, implicit⟩, ⟨sec, implicit⟩, ⟨clo, implicit⟩,
    ⟨phs, implicit⟩, ⟨pos, implicit⟩, ⟨pha, implicit⟩, ⟨poa, implicit⟩,
    ⟨cmp, absolute⟩, ⟨cmp, indexedW⟩, ⟨cmp, indexedX⟩, ⟨cmp, immediate⟩,
    ⟨cpw, absolute⟩, ⟨cpw, immediate⟩,
    ⟨cpx, absolute⟩, ⟨cpx, immediate⟩,
    ⟨and, absolute⟩, ⟨and, indexedW⟩, ⟨and, immediate⟩,
    ⟨ora, absolute⟩, ⟨ora, indexedW⟩, ⟨ora, immediate⟩,
    ⟨xor, absolute⟩, ⟨xor, indexedW⟩, ⟨xor, immediate⟩,
    ⟨rol, absolute⟩, ⟨rol, accumulator⟩,
    ⟨ror, absolute⟩, ⟨ror, accumulator⟩,
    ⟨bsl, accumulator⟩, ⟨bsr, accumulator⟩,
    ⟨add, absolute⟩, ⟨add, indexedW⟩, ⟨add, indexedX⟩, ⟨add, immediate⟩,
    ⟨sub, absolute⟩, ⟨sub, indexedW⟩, ⟨sub, indexedX⟩, ⟨sub, immediate⟩,
    ⟨inc, absolute⟩, ⟨inc, indexedW⟩,
    ⟨dec, absolute⟩, ⟨dec, indexedW⟩,
    ⟨inw, implicit⟩, ⟨dew, implicit⟩, ⟨inx, implicit⟩, ⟨dex, implicit⟩,
    ⟨mov, registerCoded⟩,
    ⟨bsl, absolute⟩, ⟨bsr, absolute⟩,
    ⟨out, absolute⟩, ⟨out, indexedW⟩, ⟨out, accumulator⟩,
    ⟨onl, implicit⟩ ]

/-- The form that an opcode stands for, if it stands for any. -/
def ofOpcode? (opcode : Byte) : Option Form :=
  table[opcode.toNat]?

/-- The opcode of a form, if the machine knows it. -/
def opcode? (form : Form) : Option Byte :=
  (table.idxOf? form).map UInt8.ofNat

/-! ### Decoding and encoding undo each other -/

theorem length_table : table.length = 91 := rfl

/-- No form stands in the table twice. -/
theorem nodup_table : table.Nodup := by decide

/-- **An opcode is decoded to a form exactly if the form is encoded as it.** -/
theorem ofOpcode?_eq_some_iff {opcode : Byte} {form : Form} :
    ofOpcode? opcode = some form ↔ opcode? form = some opcode := by
  rw [ofOpcode?, opcode?, List.getElem?_eq_some_iff, Option.map_eq_some_iff]
  constructor
  · rintro ⟨h, rfl⟩
    refine ⟨opcode.toNat, List.idxOf?_eq_some_iff.2 ⟨h, rfl, fun j hj heq => ?_⟩,
      UInt8.ofNat_toNat⟩
    have := (List.getElem_inj nodup_table).1 heq
    omega
  · rintro ⟨i, hi, rfl⟩
    obtain ⟨h, rfl, -⟩ := List.idxOf?_eq_some_iff.1 hi
    have hlt : i < 2 ^ 8 := Nat.lt_trans h (by decide)
    have hi : (UInt8.ofNat i).toNat = i := by rw [UInt8.toNat_ofNat', Nat.mod_eq_of_lt hlt]
    exact ⟨by rwa [hi], by simp only [hi]⟩

/-- The bytes from 91 on are no opcodes, and all others are. -/
theorem ofOpcode?_eq_none_iff {opcode : Byte} : ofOpcode? opcode = none ↔ 91 ≤ opcode.toNat := by
  rw [ofOpcode?, List.getElem?_eq_none_iff, length_table]

end Form

/-- Whether the machine knows a mnemonic in a mode. -/
def Mnemonic.hasMode (mnemonic : Mnemonic) (mode : Mode) : Bool :=
  (Form.opcode? ⟨mnemonic, mode⟩).isSome

/-- The modes that the machine knows a mnemonic in, in the order of opcodes. -/
def Mnemonic.modes (mnemonic : Mnemonic) : List Mode :=
  (Form.table.filter fun form => form.mnemonic == mnemonic).map Form.mode

namespace Mnemonic

variable {mnemonic : Mnemonic} {mode : Mode}

/-- The machine knows the forms in the table, and no others. -/
theorem hasMode_iff_mem_table : mnemonic.hasMode mode = true ↔ ⟨mnemonic, mode⟩ ∈ Form.table := by
  rw [hasMode, Form.opcode?, Option.isSome_map, List.isSome_idxOf?]

/-- The modes of a mnemonic are those that the machine knows it in. -/
theorem mem_modes_iff : mode ∈ mnemonic.modes ↔ mnemonic.hasMode mode = true := by
  rw [hasMode_iff_mem_table]
  constructor
  · intro h
    obtain ⟨form, hform, rfl⟩ := List.mem_map.1 h
    obtain ⟨hmem, hname⟩ := List.mem_filter.1 hform
    rw [beq_iff_eq] at hname
    rwa [← hname]
  · intro h
    exact List.mem_map.2 ⟨_, List.mem_filter.2 ⟨h, beq_self_eq_true mnemonic⟩, rfl⟩

end Mnemonic

end EightBit
