import EightBit.Text.Numeral

/-!
# Mnemonics

The three-letter words that source text uses for what an instruction does. Each
is spelt in upper case, and read in any case (`EightBit.Mnemonic.ofText?`).
-/

namespace EightBit

/-- **A mnemonic**: the word for an instruction. -/
inductive Mnemonic where
  /-- Do nothing. -/
  | nop
  /-- Load A. -/
  | lda
  /-- Load W. -/
  | ldw
  /-- Load X. -/
  | ldx
  /-- Load Y. -/
  | ldy
  /-- Load Z. -/
  | ldz
  /-- Store A. -/
  | sta
  /-- Store W. -/
  | stw
  /-- Store X. -/
  | stx
  /-- Store Y. -/
  | sty
  /-- Store Z. -/
  | stz
  /-- Jump. -/
  | jmp
  /-- Jump to a function, leaving behind where to return to. -/
  | jfn
  /-- Return from a function. -/
  | ret
  /-- Branch if the carry is clear. -/
  | bcc
  /-- Branch if the carry is set. -/
  | bcs
  /-- Branch if the last result was not zero. -/
  | bne
  /-- Branch if the last result was zero. -/
  | beq
  /-- Branch if the last result was not negative. -/
  | brp
  /-- Branch if the last result was negative. -/
  | brn
  /-- Clear the carry. -/
  | clc
  /-- Set the carry. -/
  | sec
  /-- Clear the overflow. -/
  | clo
  /-- Push the status. -/
  | phs
  /-- Pop the status. -/
  | pos
  /-- Push A. -/
  | pha
  /-- Pop A. -/
  | poa
  /-- Compare A. -/
  | cmp
  /-- Compare W. -/
  | cpw
  /-- Compare X. -/
  | cpx
  /-- Bitwise and with A. -/
  | and
  /-- Bitwise or with A. -/
  | ora
  /-- Bitwise exclusive or with A. -/
  | xor
  /-- Rotate left through the carry. -/
  | rol
  /-- Rotate right through the carry. -/
  | ror
  /-- Shift left. -/
  | bsl
  /-- Shift right. -/
  | bsr
  /-- Add to A with carry. -/
  | add
  /-- Subtract from A with borrow. -/
  | sub
  /-- Increment a cell. -/
  | inc
  /-- Decrement a cell. -/
  | dec
  /-- Increment W. -/
  | inw
  /-- Decrement W. -/
  | dew
  /-- Increment X. -/
  | inx
  /-- Decrement X. -/
  | dex
  /-- Move one register to another. -/
  | mov
  /-- Print a byte as a character. -/
  | out
  /-- Print a new line. -/
  | onl
deriving DecidableEq, Repr

namespace Mnemonic

/-- The mnemonics in their customary order. -/
def all : List Mnemonic :=
  [nop, lda, ldw, ldx, ldy, ldz, sta, stw, stx, sty, stz, jmp, jfn, ret, bcc, bcs, bne, beq,
    brp, brn, clc, sec, clo, phs, pos, pha, poa, cmp, cpw, cpx, and, ora, xor, rol, ror, bsl,
    bsr, add, sub, inc, dec, inw, dew, inx, dex, mov, out, onl]

theorem mem_all (mnemonic : Mnemonic) : mnemonic ∈ all := by
  cases mnemonic <;> decide

/-- The spelling of a mnemonic. -/
def name : Mnemonic → String
  | nop => "NOP"
  | lda => "LDA"
  | ldw => "LDW"
  | ldx => "LDX"
  | ldy => "LDY"
  | ldz => "LDZ"
  | sta => "STA"
  | stw => "STW"
  | stx => "STX"
  | sty => "STY"
  | stz => "STZ"
  | jmp => "JMP"
  | jfn => "JFN"
  | ret => "RET"
  | bcc => "BCC"
  | bcs => "BCS"
  | bne => "BNE"
  | beq => "BEQ"
  | brp => "BRP"
  | brn => "BRN"
  | clc => "CLC"
  | sec => "SEC"
  | clo => "CLO"
  | phs => "PHS"
  | pos => "POS"
  | pha => "PHA"
  | poa => "POA"
  | cmp => "CMP"
  | cpw => "CPW"
  | cpx => "CPX"
  | and => "AND"
  | ora => "ORA"
  | xor => "XOR"
  | rol => "ROL"
  | ror => "ROR"
  | bsl => "BSL"
  | bsr => "BSR"
  | add => "ADD"
  | sub => "SUB"
  | inc => "INC"
  | dec => "DEC"
  | inw => "INW"
  | dew => "DEW"
  | inx => "INX"
  | dex => "DEX"
  | mov => "MOV"
  | out => "OUT"
  | onl => "ONL"

/-- The spelling of a mnemonic, as text. -/
def text (mnemonic : Mnemonic) : Text :=
  mnemonic.name.toList

/-- The mnemonic that a text spells; the case of an ASCII letter does not
matter. -/
def ofText? (text : Text) : Option Mnemonic :=
  let capitals := text.map Char.toUpper
  all.find? fun mnemonic => mnemonic.text == capitals

@[simp] theorem ofText?_text (mnemonic : Mnemonic) : ofText? mnemonic.text = some mnemonic := by
  cases mnemonic <;> decide

/-- **A text spells a mnemonic** exactly if it is the name of it, small letters being the same as
capitals. -/
theorem ofText?_eq_some_iff {text : Text} {mnemonic : Mnemonic} :
    ofText? text = some mnemonic ↔ text.map Char.toUpper = mnemonic.text := by
  constructor
  · intro h
    have hname := List.find?_some h
    rw [beq_iff_eq] at hname
    exact hname.symm
  · intro h
    have hcapitals : mnemonic.text.map Char.toUpper = mnemonic.text := by
      cases mnemonic <;> decide
    rw [← ofText?_text mnemonic, ofText?, ofText?, h, hcapitals]

end Mnemonic

end EightBit
