import EightBit.Assembly.Program
import EightBit.CommandLine.Report

/-!
# The self test

A program that exercises the whole machine and leaves the result of each check in
a cell of memory, together with what these cells have to hold in the end. It is
run with every register set to something odd, so that it cannot rely on what a
fresh machine happens to hold.
-/

namespace EightBit

namespace SelfTest

/-- **The program** of the self test. -/
def source : String :=
"; Every check leaves its result in a cell from $0300 up, and the last thing the
; program does is to write 1 to $03FF.

; Addition, with a carry out of the top bit and a carry in
        CLC
        LDA #200
        ADD #100        ; 44, carry set
        STA $0300
        LDA #0
        ADD #0          ; nothing but the carry
        STA $0301

; Subtraction
        SEC             ; nothing to borrow
        LDA #50
        SUB #8
        STA $0302

; A loop: three is added while X counts down from five
        CLC
        LDX #5
        LDA #0
        ADD #3
        DEX
        BNE -6          ; to the addition
        STA $0303

; Logic
        LDA #%11110000
        AND #%00111100
        ORA #%00000001
        XOR #%11111111
        STA $0304

; Rotations and shifts
        CLC
        LDA #%10000001
        ROL             ; %00000010, carry set
        ROL             ; %00000101, carry clear
        BSL             ; %00001010
        STA $0305
        LDA #$80
        STA $0306
        BSR $0306       ; $40

; A comparison, and its flags by way of the stack
        LDA #7
        CMP #9          ; smaller: the sign set, carry and zero clear
        PHS
        POA
        AND #%10000011
        STA $0307

; Indexing, and moves between registers
        LDW #2
        LDA #$11
        STA $08, W      ; to $000A
        LDX #$0A
        MOV X, Y
        LDA #0
        LDA $00, X
        STA $0308
        MOV Y, A
        STA $0309

; Counting up and down in memory, past the end of a byte
        LDA #$FF
        STA $030A
        INC $030A       ; $00
        INC $030A
        INC $030A
        DEC $030A       ; $01

; Characters
        LDA #'O'
        OUT
        LDA #'K'
        OUT
        ONL

; A call and its return
        LDA #21
        JFN $40C6       ; doubles it
        STA $030B

        LDA #1
        STA $03FF
        JMP $40CC       ; past the end of the program

; Doubles A. A call lands one instruction past its target.
        NOP
        BSL
        RET
"

/-- Where the program is loaded. -/
def loadAddress : Word := 0x4000

/-- The cells in which the program leaves its results, and what they have to
hold. -/
def expected : List (Word × Byte) :=
  [ (0x0300, 44), (0x0301, 1), (0x0302, 42), (0x0303, 15), (0x0304, 0xCE), (0x0305, 0x0A),
    (0x0306, 0x40), (0x0307, 0x80), (0x0308, 0x11), (0x0309, 0x0A), (0x030A, 0x01),
    (0x030B, 42), (0x03FF, 1) ]

/-- The cells through which the return address of the one call goes. -/
def returnCells : List Word :=
  [0x01FE, 0x01FF]

/-- The registers that the program starts with. -/
def oddRegisters (r : Registers) : Registers :=
  { r with a := 0xAA, w := 0x55, x := 0xFF, y := 0x80, z := 0x01, p := .ofByte 0xFF }

/-- More polls than the program needs. -/
def budget : Nat := 10000

/-- Whether each check has passed, after the run of the program. -/
def checks (run : Run) : List Bool :=
  let cells := expected.map fun (address, value) =>
    run.machine.memory.cell? address.toNat == some value
  let output := printed run.events == "OK\n".toList
  let stack := returnCells.map fun address =>
    run.machine.memory.cell? address.toNat == some 0 && run.machine.stack.depth == 0
  cells ++ [output] ++ stack

/-- The program loaded into a fresh machine with odd registers, if it can be
assembled. -/
def prepare : Option Machine := do
  let image ← (assemble .standard source.toList).toOption
  let machine ← (Machine.new {} addressSpace).toOption
  let machine ← ((Action.reset machine).machine.load loadAddress.toNat image).toOption
  return { machine with registers := oddRegisters machine.registers }

/-- **The report of the self test.** -/
def report : Report :=
  match prepare with
  | none => .failure [] "The self test cannot be run" "its program does not assemble"
  | some machine =>
    let run := machine.execute .never budget loadAddress
    let results := checks run
    let failed := results.countP not
    match run.ending with
    | .halted =>
      if failed = 0 then .success s!"All {results.length} checks passed.\n".toList
      else ⟨1, [], some s!"Error: {failed} of {results.length} checks failed\n".toList⟩
    | .faulted fault =>
      let dump := String.ofList run.machine.registers.dump
      .failure [] s!"The functional test crashed. {dump}" fault.message
    | .paused _ => .failure [] "The self test did not end" "its budget is used up"

end SelfTest

end EightBit
