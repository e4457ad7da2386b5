import EightBit.Assembly.Program
import EightBit.CommandLine.Files
import EightBit.CommandLine.Options
import EightBit.Listing
import EightBit.Machine.Run

/-!
# Running a source file

What the command line does for a source file: assemble it, print the program if
that is asked for, load it into a new machine, run it, and print the registers
when the run is over. The first thing that goes wrong ends it, with a report that
says what was being done and what the cause was.

`EightBit.Stage.ofSource` goes up to the point where the machine is ready to run,
`EightBit.Report.ofRun` takes over when the run has ended, and
`EightBit.respond` puts the two together. A run is taken in slices, so that what it
has printed is all that has to be kept of a slice.
-/

namespace EightBit

/-- **What the command line leaves behind**: an exit code, the text it prints, and
its complaints. The last are left to the outer layer when the arguments were not
in order. -/
structure Report where
  exit : Nat
  output : Text
  complaint : Option Text
deriving DecidableEq, Repr

namespace Report

/-- How the command line is used. -/
def usage : String :=
  "Assemble a program and run it\n\n" ++
  "Usage: eightbit [OPTIONS] <SOURCE>\n\n" ++
  "Options:\n" ++
  "  --start <ADDRESS>         Where to start running, if not where the program is loaded\n" ++
  "  --load-address <ADDRESS>  Where to put the program [default: $4000]\n" ++
  "  --memory-size <COUNT>     Bytes of memory [default: 65536]\n" ++
  "  --dump                    Print the assembled program before running it\n" ++
  "  --self-test               Run the self test, as the only argument\n" ++
  "  -h, --help                Print help\n"

/-- The report on a request for help. -/
def help : Report :=
  ⟨0, usage.toList, some []⟩

/-- The report on arguments that are not in order. -/
def misuse : Report :=
  ⟨2, [], none⟩

/-- The report on a success. -/
def success (output : Text) : Report :=
  ⟨0, output, some []⟩

/-- The report on a failure: what was being done, and why it failed. -/
def failure (output : Text) (context cause : String) : Report :=
  ⟨1, output, some s!"Error: {context}\n\nCaused by:\n    {cause}\n".toList⟩

end Report

/-! ### Printing a program -/

/-- The bytes of an instruction in hexadecimal. -/
def Triple.hexBytes (t : Triple) : List String :=
  t.bytes.map fun b => String.ofList (Numeral.hexByte b)

/-- A line of print: an address and what stands there. -/
def printLine (address : Nat) (content : String) : Text :=
  Numeral.hexAddress address ++ ("  " ++ content ++ "\n").toList

/-- **A program in print**: the header, and then each instruction with its address,
its bytes and its line of source text. -/
def printProgram (loadAddress : Word) (image : List Byte) : Except Fault Text := do
  let lines ← disassemble image
  match Triple.ofBytes image with
  | ([], _) => return []
  | (head :: program, _) =>
    let first := printLine loadAddress.toNat ("[" ++ ", ".intercalate head.hexBytes ++ "]")
    let rest := ((program.zip lines).zipIdx 1).flatMap fun ((t, line), number) =>
      printLine (loadAddress.toNat + instructionWidth * number)
        (" ".intercalate t.hexBytes ++ "  " ++ String.ofList line)
    return first ++ rest

/-! ### From a source file to a report -/

/-- How far a source file has got. -/
inductive Stage where
  /-- The report is ready. -/
  | over (report : Report)
  /-- The machine is ready to run the program at an address; some text has been
  printed. -/
  | ready (output : Text) (machine : Machine) (start : Word)

/-- **Making a source file ready to run.** -/
def Stage.ofSource (options : Options) (file : Except Unreadable Text) : Stage :=
  match file with
  | .error e => .over (.failure [] s!"Couldn't read {options.source}" e.message)
  | .ok source =>
    match assemble .standard source with
    | .error e => .over (.failure [] s!"Couldn't assemble {options.source}" e.message)
    | .ok image =>
      let printed := if options.dump then printProgram options.loadAddress image else .ok []
      match printed with
      | .error e => .over (.failure [] "Couldn't disassemble the program" e.message)
      | .ok output =>
        match Machine.new {} options.memorySize with
        | .error e => .over (.failure output "Couldn't build the machine" e.message)
        | .ok machine =>
          match (Action.reset machine).machine.load options.loadAddress.toNat image with
          | .error e => .over (.failure output "The program doesn't fit in memory" e.message)
          | .ok machine => .ready output machine (options.start.getD options.loadAddress)

/-- **The report on a run**, after some text has been printed, unless the run is
merely paused. -/
def Report.ofRun (output : Text) (run : Run) : Option Report :=
  let output := output ++ run.machine.registers.dump ++ ['\n']
  match run.ending with
  | .halted => some (.success output)
  | .faulted fault => some (.failure output "The program stopped early" fault.message)
  | .paused _ => none

/-- The number of polls between two looks at what a run has printed. -/
def Report.slice : Nat := 10000

/-- The report on a run that is taken up again, a slice at a time, for as long as it
is merely paused and for as many slices as there are. The text printed before comes
backwards. -/
def Report.follow : (slices : Nat) → (printedBefore : Text) → Run → Option Report
  | slices, printedBefore, run =>
    let output := (printed run.events).reverse ++ printedBefore
    match run.ending, slices with
    | .paused stop, slices + 1 => follow slices output (run.machine.resume stop slice)
    | _, _ => ofRun output.reverse run

/-- **The command line's answer** to arguments, given what reading a source file
yields, if the program ends within a number of slices after the first. -/
def respond (slices : Nat) (arguments : List String)
    (readSource : String → Except Unreadable Text) : Option Report :=
  match Options.read arguments with
  | .misuse => some .misuse
  | .help => some .help
  | .run options =>
    match Stage.ofSource options (readSource options.source) with
    | .over report => some report
    | .ready output machine start =>
      Report.follow slices output.reverse (machine.execute .never Report.slice start)

end EightBit
