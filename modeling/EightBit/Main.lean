import EightBit.CommandLine.Report
import EightBit.SelfTest

/-!
# The command line

The outer layer of the program. It reads the source file, prints what there is to
print and exits with the right code. A run is taken in slices, and what each slice
prints appears as soon as the slice is over, so that a program that never ends can
be watched all the same.
-/

namespace EightBit

namespace CommandLine

/-- The number of an error in the system's own count, which may come negated. -/
def errorNumber (code : UInt32) : Nat :=
  if code < 0x80000000 then code.toNat else 0x100000000 - code.toNat

/-- Why a file could not be read. -/
def unreadable (e : IO.Error) : Unreadable :=
  match e with
  | .noFileOrDirectory .. => .missing
  | .permissionDenied .. => .denied
  | .inappropriateType _ code _ =>
    if errorNumber code = 21 then .directory else .notDirectory
  | .invalidArgument _ code _ =>
    if errorNumber code = 36 then .nameTooLong else .other e.toString
  | _ => .other e.toString

/-- What reading a source file yields. -/
def readSource (path : String) : IO (Except Unreadable Text) := do
  try
    return sourceText (← IO.FS.readBinFile path)
  catch e =>
    return .error (unreadable e)

/-- Print a report and give its exit code. -/
def conclude (report : Report) : IO UInt32 := do
  IO.print (String.ofList report.output)
  match report.complaint with
  | some complaint => IO.eprint (String.ofList complaint)
  | none => IO.eprint Report.usage
  return UInt32.ofNat report.exit

/-- Print what a slice of a run has printed, and go on until the run is over. -/
partial def follow (run : Run) : IO UInt32 := do
  IO.print (String.ofList (printed run.events))
  (← IO.getStdout).flush
  match run.ending, Report.ofRun [] run with
  | .paused stop, _ => follow (run.machine.resume stop Report.slice)
  | _, some report => conclude report
  | _, none => return 1

/-- Run a source file. -/
def runSource (options : Options) : IO UInt32 := do
  match Stage.ofSource options (← readSource options.source) with
  | .over report => conclude report
  | .ready output machine start =>
    IO.print (String.ofList output)
    follow (machine.execute .never Report.slice start)

end CommandLine

end EightBit

/-- Run the source file that the arguments name, or the self test if the only
argument asks for it. -/
def main (arguments : List String) : IO UInt32 :=
  match arguments with
  | ["--self-test"] => EightBit.CommandLine.conclude EightBit.SelfTest.report
  | _ =>
    match EightBit.Options.read arguments with
    | .misuse => EightBit.CommandLine.conclude .misuse
    | .help => EightBit.CommandLine.conclude .help
    | .run options => EightBit.CommandLine.runSource options
